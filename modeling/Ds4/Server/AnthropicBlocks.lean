import Ds4.Server.AnthropicStream

/- The block lifecycle of an Anthropic stream.

   PROVED here (`anthropic_wellBracketed`): however the text is cut into updates,
   the events are blocks 0, 1, 2, …, each announced, filled and closed before the
   next one and before the message ends, and each finished call is announced once,
   exactly when the text does not end inside a call that the live projection has
   announced: `cut_off_call` is one that does. A client follows the blocks with one
   bit and a counter (`follow`); what it accepts is the grammar of blocks
   (`blocks_of_follow`, `Blocks.follow`). -/
namespace Ds4.Server
open Bytes

/-! ## The grammar of blocks -/

/-- Blocks from index `n` up to `m`. -/
inductive Blocks : Nat → List AnthropicEvent → Nat → Prop
  | nil (n : Nat) : Blocks n [] n
  | block {n m : Nat} (block : AnthropicBlock) {body rest : List AnthropicEvent}
      (hbody : ∀ e ∈ body, ∃ d, e = .contentBlockDelta n d) (hrest : Blocks (n + 1) rest m) :
      Blocks n (.contentBlockStart n block :: (body ++ .contentBlockStop n :: rest)) m

def WellBracketed (log : List AnthropicEvent) : Prop :=
  ∃ id model usage blocks n finish tokens,
    log = .messageStart id model usage :: (blocks ++ [.messageDelta finish tokens, .messageStop]) ∧ Blocks 0 blocks n

/-- The number of the call a block is announced for. -/
def AnthropicEvent.startedCall : AnthropicEvent → Option Nat
  | .contentBlockStart _ (.toolUse call _ _) => some call
  | _ => none

/-- Each of the first `n` calls is announced once. -/
def StartedOnce (log : List AnthropicEvent) (n : Nat) : Prop :=
  ∀ i < n, (log.filterMap AnthropicEvent.startedCall).count i = 1

/-! ## A client that follows the blocks -/

/-- Whether a block is open and the index of that or of the next one; `none` where the
    client is lost. -/
def follow (s : Bool × Nat) : AnthropicEvent → Option (Bool × Nat)
  | .messageStart .. => some s
  | .contentBlockStart i _ => if s = (false, i) then some (true, i) else none
  | .contentBlockDelta i _ => if s = (true, i) then some s else none
  | .contentBlockStop i => if s = (true, i) then some (false, i + 1) else none
  | .messageDelta .. => if s.1 then none else some s
  | .messageStop => if s.1 then none else some s

def AnthropicEvent.ofBlock : AnthropicEvent → Bool
  | .contentBlockStart .. => true
  | .contentBlockDelta .. => true
  | .contentBlockStop .. => true
  | _ => false

theorem follow_deltas {n : Nat} : ∀ {body : List AnthropicEvent}, (∀ e ∈ body, ∃ d, e = .contentBlockDelta n d) →
    body.foldlM follow (true, n) = some (true, n)
  | [], _ => rfl
  | e :: body, h => by
    obtain ⟨⟨d, rfl⟩, hbody⟩ := List.forall_mem_cons.mp h
    rw [List.foldlM_cons, follow, if_pos rfl]
    exact follow_deltas hbody

theorem Blocks.follow {n m : Nat} {log : List AnthropicEvent} (h : Blocks n log m) :
    log.foldlM follow (false, n) = some (false, m) := by
  induction h with
  | nil n => rfl
  | block block hbody _ ih =>
    rw [List.foldlM_cons, Server.follow, if_pos rfl]
    simp only [Option.bind_eq_bind, Option.bind_some, List.foldlM_append, follow_deltas hbody, List.foldlM_cons, Server.follow,
      if_true, ih]

theorem WellBracketed.follow {log : List AnthropicEvent} (h : WellBracketed log) :
    ∃ n, log.foldlM follow (false, 0) = some (false, n) := by
  obtain ⟨id, model, usage, blocks, n, finish, tokens, rfl, hb⟩ := h
  refine ⟨n, ?_⟩
  rw [List.foldlM_cons, Server.follow]
  simp only [Option.bind_eq_bind, Option.bind_some, List.foldlM_append, hb.follow, List.foldlM_cons, Server.follow]
  rfl

/-- From an open block on: its deltas, its end and the blocks after it. -/
theorem blocks_of_follow {m : Nat} : ∀ {log : List AnthropicEvent} {n : Nat}, (∀ e ∈ log, e.ofBlock = true) →
    (log.foldlM follow (false, n) = some (false, m) → Blocks n log m) ∧
      (log.foldlM follow (true, n) = some (false, m) → ∃ body rest, log = body ++ .contentBlockStop n :: rest ∧
        (∀ e ∈ body, ∃ d, e = .contentBlockDelta n d) ∧ Blocks (n + 1) rest m)
  | [], n, _ => by
    refine ⟨fun h => ?_, fun h => ?_⟩
    · cases h
      exact .nil _
    · cases h
  | e :: log, n, hall => by
    obtain ⟨he, hlog⟩ := List.forall_mem_cons.mp hall
    refine ⟨fun h => ?_, fun h => ?_⟩
    · rw [List.foldlM_cons] at h
      cases e with
      | contentBlockStart i block =>
        by_cases hi : i = n
        · subst hi
          rw [follow, if_pos rfl] at h
          obtain ⟨body, rest, rfl, hbody, hrest⟩ := (blocks_of_follow hlog).2 h
          exact .block block hbody hrest
        · rw [follow, if_neg fun heq => hi (Prod.mk.inj heq).2.symm] at h
          cases h
      | contentBlockDelta i d => exact absurd h (by simp [follow])
      | contentBlockStop i => exact absurd h (by simp [follow])
      | _ => cases he
    · rw [List.foldlM_cons] at h
      cases e with
      | contentBlockStart i block => exact absurd h (by simp [follow])
      | contentBlockDelta i d =>
        by_cases hi : i = n
        · subst hi
          rw [follow, if_pos rfl] at h
          obtain ⟨body, rest, rfl, hbody, hrest⟩ := (blocks_of_follow hlog).2 h
          exact ⟨.contentBlockDelta i d :: body, rest, rfl, List.forall_mem_cons.mpr ⟨⟨d, rfl⟩, hbody⟩, hrest⟩
        · rw [follow, if_neg fun heq => hi (Prod.mk.inj heq).2.symm] at h
          cases h
      | contentBlockStop i =>
        by_cases hi : i = n
        · subst hi
          rw [follow, if_pos rfl] at h
          exact ⟨[], log, rfl, by simp, (blocks_of_follow hlog).1 h⟩
        · rw [follow, if_neg fun heq => hi (Prod.mk.inj heq).2.symm] at h
          cases h
      | _ => cases he

/-! ## The log and the stream -/

/-- The client has followed the log, which is a message that has not ended. -/
structure Followed (log : List AnthropicEvent) (isOpen : Bool) (next : Nat) : Prop where
  accepts : log.foldlM follow (false, 0) = some (isOpen, next)
  shape : ∃ id model usage mid, log = .messageStart id model usage :: mid ∧ ∀ e ∈ mid, e.ofBlock = true

theorem Followed.push {log : List AnthropicEvent} {isOpen isOpen' : Bool} {next next' : Nat} {e : AnthropicEvent}
    (h : Followed log isOpen next) (he : follow (isOpen, next) e = some (isOpen', next')) (hb : e.ofBlock = true) :
    Followed (log ++ [e]) isOpen' next' := by
  obtain ⟨id, model, usage, mid, rfl, hmid⟩ := h.shape
  refine ⟨?_, id, model, usage, mid ++ [e], rfl, ?_⟩
  · rw [List.foldlM_append, h.accepts]
    simp [he]
  · intro e' he'
    rcases List.mem_append.mp he' with hin | hin
    · exact hmid e' hin
    · exact List.mem_singleton.mp hin ▸ hb

theorem Followed.start {log : List AnthropicEvent} {next : Nat} (h : Followed log false next) (block : AnthropicBlock) :
    Followed (log ++ [.contentBlockStart next block]) true next := h.push (if_pos rfl) rfl

theorem Followed.delta {log : List AnthropicEvent} {next : Nat} (h : Followed log true next) (d : AnthropicDelta) :
    Followed (log ++ [.contentBlockDelta next d]) true next := h.push (if_pos rfl) rfl

theorem Followed.stop {log : List AnthropicEvent} {next : Nat} (h : Followed log true next) :
    Followed (log ++ [.contentBlockStop next]) false (next + 1) := h.push (if_pos rfl) rfl

/-- What the reader's state says about the call it is in. -/
def insideCall (state : DsmlToolState) (argsOpen : Bool) : Bool :=
  match state with
  | .betweenInvokes => !argsOpen
  | .betweenParams => argsOpen
  | .paramValue => argsOpen
  | .done => true
  | .error => true

/-- The blocks a mode can have open. -/
def blockFits (mode : AnthropicStreamMode) (openBlock : AnthropicBlockType) : Bool :=
  openBlock = .none || match mode with
    | .thinking => openBlock = .thinking
    | .text => openBlock = .text
    | .tool => openBlock = .tool
    | .suppress => openBlock = .tool

structure Following (c : AnthropicConn) : Prop where
  log : Followed c.sent (c.st.openBlock != .none) c.st.nextIndex
  calls : c.sent.filterMap AnthropicEvent.startedCall = List.range (c.st.tool.index + c.st.tool.argsOpen.toNat)
  call_open : c.st.openBlock = .tool ↔ c.st.tool.argsOpen = true
  fits : blockFits c.st.mode c.st.openBlock = true
  emitted : c.st.tool.emittedAny = false → c.st.tool.index = 0 ∧ c.st.tool.argsOpen = false
  inside : c.st.mode = .tool → c.st.tool.active = true → insideCall c.st.tool.state c.st.tool.argsOpen = true
  fresh : c.st.mode ≠ .tool → c.st.mode ≠ .suppress → c.st.tool.emittedAny = false
  active : c.st.active = true

section
variable (r : AnthropicRequest) (raw : Bytes) {c : AnthropicConn}

@[simp] theorem sseEvent_st (e : AnthropicEvent) : (sseEvent e c).st = c.st := rfl

@[simp] theorem sseEvent_sent (e : AnthropicEvent) : (sseEvent e c).sent = c.sent ++ [e] := rfl

@[simp] theorem toolDelta_st (text : Bytes) : (anthropicSseToolDeltaLive text c).st = c.st := by
  rw [anthropicSseToolDeltaLive]
  split_ifs <;> rfl

theorem Following.open_eq (h : Following c) (ho : c.st.tool.argsOpen = true) : c.st.openBlock = .tool := h.call_open.mpr ho

/-- A block of the open kind takes a delta. -/
theorem Following.delta (h : Following c) (ho : c.st.openBlock ≠ .none) (d : AnthropicDelta) :
    Following (sseEvent (.contentBlockDelta c.st.nextIndex d) c) := by
  have hopen : (c.st.openBlock != .none) = true := by simpa using ho
  have hlog := h.log
  rw [hopen] at hlog
  refine { h with log := ?_, calls := ?_ }
  · rw [sseEvent_st, hopen]
    exact hlog.delta d
  · simpa [List.filterMap_cons, AnthropicEvent.startedCall] using h.calls

theorem Following.toolDelta (h : Following c) (ho : c.st.tool.argsOpen = true) (text : Bytes) :
    Following (anthropicSseToolDeltaLive text c) := by
  rw [anthropicSseToolDeltaLive]
  split_ifs
  · exact h
  · exact h.delta (by rw [h.open_eq ho]; decide) _

/-- The reader moves on inside or outside the call it is in. -/
theorem Following.setTool (h : Following c) {ts : AnthropicToolStream} (hi : ts.index = c.st.tool.index)
    (ha : ts.argsOpen = c.st.tool.argsOpen) (he : ts.emittedAny = c.st.tool.emittedAny)
    (hin : ts.active = true → insideCall ts.state ts.argsOpen = true) : Following (c.setTool ts) where
  log := h.log
  calls := by
    rw [AnthropicConn.setTool, hi, ha]
    exact h.calls
  call_open := by
    rw [AnthropicConn.setTool, ha]
    exact h.call_open
  fits := h.fits
  emitted := by
    rw [AnthropicConn.setTool, hi, ha, he]
    exact h.emitted
  inside := fun _ => hin
  fresh := by
    rw [AnthropicConn.setTool, he]
    exact h.fresh
  active := h.active

/-! ### Closing a block -/

/-- The events of a closing block, and where they leave the client. -/
theorem close_followed (h : Followed c.sent (c.st.openBlock != .none) c.st.nextIndex) :
    ∃ next, Followed (anthropicSseCloseBlockLive r c).sent false next ∧
      (anthropicSseCloseBlockLive r c).sent.filterMap AnthropicEvent.startedCall =
        c.sent.filterMap AnthropicEvent.startedCall ∧
      (anthropicSseCloseBlockLive r c).st = { c.st with openBlock := .none, nextIndex := next } := by
  rw [anthropicSseCloseBlockLive]
  cases ho : c.st.openBlock with
  | none =>
    rw [ho] at h
    exact ⟨c.st.nextIndex, h, rfl, by rw [if_pos rfl, ← ho]⟩
  | thinking =>
    rw [ho] at h
    exact ⟨_, (h.delta (.signature r.id)).stop, by simp [List.filterMap_cons, AnthropicEvent.startedCall], rfl⟩
  | text =>
    rw [ho] at h
    exact ⟨_, h.stop, by simp [List.filterMap_cons, AnthropicEvent.startedCall], rfl⟩
  | tool =>
    rw [ho] at h
    exact ⟨_, h.stop, by simp [List.filterMap_cons, AnthropicEvent.startedCall], rfl⟩

/-- A block of thinking or text is closed, or none is open. -/
theorem Following.close (h : Following c) (hc : c.st.tool.argsOpen = false) :
    ∃ next, Following (anthropicSseCloseBlockLive r c) ∧
      (anthropicSseCloseBlockLive r c).st = { c.st with openBlock := .none, nextIndex := next } := by
  obtain ⟨next, hlog, hcalls, hst⟩ := close_followed r h.log
  refine ⟨next, ⟨?_, ?_, ?_, ?_, ?_, ?_, ?_, ?_⟩, hst⟩
  · rw [hst]
    exact hlog
  · rw [hcalls, hst]
    exact h.calls
  · rw [hst, hc]
    simp
  · rw [hst]
    rfl
  · rw [hst]
    exact h.emitted
  · rw [hst]
    exact h.inside
  · rw [hst]
    exact h.fresh
  · rw [hst]
    exact h.active

/-! ### The tool reader -/

theorem Following.fail (h : Following c) : Following (anthropicToolStreamFail c) :=
  h.setTool rfl rfl rfl fun ha => Bool.noConfusion ha

theorem Following.atText (h : Following c) (p : Bytes) (hm : c.st.mode = .tool) (ha : c.st.tool.active = true) :
    Following (c.atText raw p) := h.setTool rfl rfl rfl fun _ => h.inside hm ha

/-- The reader outside a call announces the next one. -/
theorem Following.startInvoke (h : Following c) (hm : c.st.mode = .tool) (ho : c.st.tool.argsOpen = false) :
    ∃ c', anthropicToolStartInvoke r raw c = .ok c' ∧ Following c' ∧ c'.st.mode = .tool := by
  rw [anthropicToolStartInvoke]
  split
  · exact ⟨c, rfl, h, hm⟩
  · split
    · exact ⟨_, rfl, h.fail, hm⟩
    · next name hname =>
      have hnone : c.st.openBlock = .none := by
        have hfits := h.fits
        have hnot : c.st.openBlock ≠ .tool := fun ht => by simp [h.call_open.mp ht] at ho
        simpa [blockFits, hm, hnot] using hfits
      have hlog := h.log
      have hcalls := h.calls
      rw [hnone] at hlog
      rw [ho] at hcalls
      simp only [anthropicSseOpenToolBlock, hnone, reduceCtorEq, if_false, ne_eq, not_true_eq_false]
      refine ⟨_, rfl, ⟨?_, ?_, ?_, ?_, ?_, ?_, fun hnot => absurd hm hnot, ?_⟩, hm⟩
      · exact (hlog.start _).delta _
      · change (c.sent ++ [_] ++ [_]).filterMap AnthropicEvent.startedCall = List.range (c.st.tool.index + 1)
        simp [List.filterMap_cons, AnthropicEvent.startedCall, hcalls, List.range_succ]
      · simp [AnthropicConn.setTool]
      · simp [AnthropicConn.setTool, blockFits, hm]
      · simp [AnthropicConn.setTool]
      · simp [AnthropicConn.setTool, insideCall]
      · exact h.active

theorem Following.startParam (h : Following c) (hm : c.st.mode = .tool) (ho : c.st.tool.argsOpen = true)
    (ha : c.st.tool.active = true) :
    Following (anthropicToolStartParam raw c) ∧ (anthropicToolStartParam raw c).st.mode = .tool := by
  rw [anthropicToolStartParam]
  split
  · exact ⟨h, hm⟩
  · split
    · next name isString _ _ =>
      have hfirst : Following (c.setTool { c.st.tool with firstParam := false }) :=
        h.setTool rfl rfl rfl fun _ => h.inside hm ha
      have hpre : Following (anthropicToolEmitParamPrefix name (decide (isString = utf8 "true")) c) :=
        hfirst.toolDelta ho _
      have hst : (anthropicToolEmitParamPrefix name (decide (isString = utf8 "true")) c).st =
          { c.st with tool := { c.st.tool with firstParam := false } } := by
        rw [anthropicToolEmitParamPrefix, toolDelta_st]
        rfl
      refine ⟨hpre.setTool rfl rfl rfl fun _ => ?_, ?_⟩
      · rw [hst]
        exact ho
      · change (anthropicToolEmitParamPrefix name (decide (isString = utf8 "true")) c).st.mode = .tool
        rw [hst]
        exact hm
    · exact ⟨h.fail, hm⟩

theorem emitValue_st (text : Bytes) : (anthropicToolEmitValue text c).st = c.st := by
  rw [anthropicToolEmitValue, toolDelta_st]

theorem Following.finishParam (h : Following c) (hm : c.st.mode = .tool) (ho : c.st.tool.argsOpen = true) (value : Bytes) :
    Following (anthropicToolFinishParam value c) ∧ (anthropicToolFinishParam value c).st.mode = .tool := by
  have hvalue : Following (anthropicToolEmitValue value c) := h.toolDelta ho _
  have hst := emitValue_st (c := c) value
  rw [anthropicToolFinishParam]
  generalize anthropicToolEmitValue value c = c' at hvalue hst
  have ho' : c'.st.tool.argsOpen = true := by
    rw [hst]
    exact ho
  have hm' : c'.st.mode = .tool := by
    rw [hst]
    exact hm
  split_ifs with hs
  · have hquote := hvalue.toolDelta ho' (utf8 "\"")
    refine ⟨hquote.setTool rfl rfl rfl fun _ => ?_, ?_⟩
    · rw [toolDelta_st]
      exact ho'
    · change (anthropicSseToolDeltaLive (utf8 "\"") c').st.mode = .tool
      rw [toolDelta_st]
      exact hm'
  · exact ⟨hvalue.setTool rfl rfl rfl fun _ => ho', hm'⟩

/-- The end of a call closes its block. -/
theorem Following.endInvoke (h : Following c) (hm : c.st.mode = .tool) (ho : c.st.tool.argsOpen = true) (n : Nat) :
    let c1 := anthropicSseToolDeltaLive (utf8 "\x7d") c
    let c2 := anthropicSseCloseBlockLive r (c1.setTool { c1.st.tool with argsOpen := false })
    let c3 := c2.setTool { c2.st.tool with
      parsePos := c2.st.tool.parsePos + n, index := c2.st.tool.index + 1, state := .betweenInvokes }
    Following c3 ∧ c3.st.mode = .tool := by
  intro c1 c2 c3
  have h1 : Following c1 := h.toolDelta ho _
  have hst1 : c1.st = c.st := toolDelta_st _
  have hlog1 : Followed (c1.setTool { c1.st.tool with argsOpen := false }).sent
      ((c1.setTool { c1.st.tool with argsOpen := false }).st.openBlock != .none)
      (c1.setTool { c1.st.tool with argsOpen := false }).st.nextIndex := h1.log
  obtain ⟨next, hlog, hcalls, hst⟩ := close_followed r hlog1
  have hst3 : c3.st = { c.st with
      openBlock := .none
      nextIndex := next
      tool := { c.st.tool with
        argsOpen := false, parsePos := c2.st.tool.parsePos + n, index := c.st.tool.index + 1, state := .betweenInvokes } } := by
    change ({ c2.st with tool := { c2.st.tool with
      parsePos := c2.st.tool.parsePos + n, index := c2.st.tool.index + 1, state := .betweenInvokes } } : AnthropicStream) = _
    rw [show c2.st = _ from hst]
    simp only [AnthropicConn.setTool, hst1]
  have hemitted : c.st.tool.emittedAny = true := by
    by_contra he
    exact absurd (h.emitted (by simpa using he)).2 (by simp [ho])
  refine ⟨⟨?_, ?_, ?_, ?_, ?_, ?_, ?_, ?_⟩, ?_⟩
  · rw [hst3]
    exact hlog
  · have hbefore := h1.calls
    rw [hst1, ho] at hbefore
    rw [hst3, show c3.sent = c2.sent from rfl, show c2.sent.filterMap _ = _ from hcalls]
    exact hbefore
  · rw [hst3]
    simp
  · rw [hst3]
    rfl
  · rw [hst3]
    simp [hemitted]
  · rw [hst3]
    exact fun _ _ => rfl
  · rw [hst3]
    exact fun hnot => absurd hm hnot
  · rw [hst3]
    exact h.active
  · rw [hst3]
    exact hm

/-- One round keeps the client on the blocks. -/
theorem Following.toolStep (h : Following c) (hm : c.st.mode = .tool) (ha : c.st.tool.active = true) :
    ∃ c' again, anthropicToolStreamStep r raw c = .ok (c', again) ∧ Following c' ∧ c'.st.mode = .tool := by
  have hin := h.inside hm ha
  simp only [anthropicToolStreamStep]
  cases hstate : c.st.tool.state with
  | betweenInvokes =>
    rw [hstate] at hin
    have ho : c.st.tool.argsOpen = false := by simpa [insideCall] using hin
    simp only
    split_ifs
    · exact ⟨_, _, rfl, h.atText raw _ hm ha, hm⟩
    · exact ⟨_, _, rfl, (h.atText raw _ hm ha).setTool rfl rfl rfl fun hf => Bool.noConfusion hf, hm⟩
    · exact ⟨_, _, rfl, h.atText raw _ hm ha, hm⟩
    · obtain ⟨c', hc', hf, hm'⟩ := (h.atText raw
        (skipMarkers c.st.tool.syn (skipWs (raw.drop c.st.tool.parsePos)).length (skipWs (raw.drop c.st.tool.parsePos))) hm
        ha).startInvoke r raw hm ho
      exact ⟨c', _, by rw [hc']; rfl, hf, hm'⟩
    · exact ⟨_, _, rfl, (h.atText raw _ hm ha).fail, hm⟩
  | betweenParams =>
    rw [hstate] at hin
    have ho : c.st.tool.argsOpen = true := hin
    simp only [ho, if_true]
    split_ifs
    · exact ⟨_, _, rfl, h.atText raw _ hm ha, hm⟩
    · obtain ⟨hf, hm'⟩ := (h.atText raw (skipWs (raw.drop c.st.tool.parsePos)) hm ha).endInvoke r hm ho
        c.st.tool.syn.invokeEnd.length
      exact ⟨_, _, rfl, hf, hm'⟩
    · exact ⟨_, _, rfl, h.atText raw _ hm ha, hm⟩
    · obtain ⟨hf, hm'⟩ := (h.atText raw (skipWs (raw.drop c.st.tool.parsePos)) hm ha).startParam raw hm ho ha
      exact ⟨_, _, rfl, hf, hm'⟩
    · exact ⟨_, _, rfl, (h.atText raw _ hm ha).fail, hm⟩
  | paramValue =>
    rw [hstate] at hin
    have ho : c.st.tool.argsOpen = true := hin
    simp only
    split
    · next value _ _ =>
      obtain ⟨hf, hm'⟩ := h.finishParam hm ho value
      exact ⟨_, _, rfl, hf, hm'⟩
    · refine ⟨_, _, rfl, ?_, ?_⟩
      · have hvalue : Following (anthropicToolEmitValue ((raw.drop c.st.tool.parsePos).take
            (toolParamValueStreamSafeLen c.st.tool.syn.paramEnd c.st.tool.paramIsString (raw.drop c.st.tool.parsePos))) c) :=
          h.toolDelta ho _
        refine hvalue.setTool rfl rfl rfl fun _ => ?_
        rw [emitValue_st, hstate]
        exact ho
      · change (anthropicToolEmitValue _ c).st.mode = .tool
        rw [emitValue_st]
        exact hm
  | done => exact ⟨c, false, rfl, h, hm⟩
  | error => exact ⟨c, false, rfl, h, hm⟩

theorem Following.toolLoop (fuel : Nat) (h : Following c) (hm : c.st.mode = .tool) :
    ∃ c', anthropicToolStreamLoop r raw fuel c = .ok c' ∧ Following c' ∧ c'.st.mode = .tool := by
  induction fuel generalizing c with
  | zero => exact ⟨c, rfl, h, hm⟩
  | succ fuel ih =>
    rw [anthropicToolStreamLoop]
    split_ifs with hgo
    · rw [Bool.and_eq_true] at hgo
      obtain ⟨c', again, hstep, hf, hm'⟩ := h.toolStep r raw hm hgo.1
      rw [hstep]
      cases again with
      | true => exact ih hf hm'
      | false => exact ⟨c', rfl, hf, hm'⟩
    · exact ⟨c, rfl, h, hm⟩

/-! ### Updates -/

/-- Where the cursor stands and what was sent does not matter to the client. -/
theorem Following.cursor (h : Following c) (pos : Nat) (checked thought spoke : Bool) :
    Following { c with st := { c.st with
      emitPos := pos, checkedThinkPrefix := checked, sentThinking := thought, sentText := spoke } } :=
  ⟨h.log, h.calls, h.call_open, h.fits, h.emitted, h.inside, h.fresh, h.active⟩

/-- Another mode that the open block fits. -/
theorem Following.setMode (h : Following c) (mode : AnthropicStreamMode) (hfits : blockFits mode c.st.openBlock = true)
    (hnot : mode ≠ .tool) (hfresh : mode ≠ .suppress → c.st.tool.emittedAny = false) :
    Following { c with st := { c.st with mode := mode } } :=
  ⟨h.log, h.calls, h.call_open, hfits, h.emitted, fun ht => absurd ht hnot, fun _ => hfresh, h.active⟩

theorem Following.quiet (h : Following c) (hm : c.st.mode = .thinking ∨ c.st.mode = .text) :
    c.st.tool.emittedAny = false ∧ c.st.tool.index = 0 ∧ c.st.tool.argsOpen = false := by
  have hfresh : c.st.tool.emittedAny = false := by
    rcases hm with hm | hm <;> exact h.fresh (by rw [hm]; decide) (by rw [hm]; decide)
  exact ⟨hfresh, h.emitted hfresh⟩

/-- Bytes of thinking in thinking mode, of text in text mode. -/
theorem Following.show (h : Following c) {type : AnthropicBlockType}
    (hm : c.st.mode = .thinking ∧ type = .thinking ∨ c.st.mode = .text ∧ type = .text) (k : Nat) :
    ∃ c', anthropicShow type raw k c = .ok c' ∧ Following c' ∧ c'.st.mode = c.st.mode ∧ c'.st.tool = c.st.tool := by
  have hargs : c.st.tool.argsOpen = false := (h.quiet (hm.imp And.left And.left)).2.2
  have hopen : ∃ c', anthropicSseOpenBlock type c = .ok c' ∧ Following c' ∧ c'.st.mode = c.st.mode ∧
      c'.st.tool = c.st.tool ∧ c'.st.openBlock = type := by
    rw [anthropicSseOpenBlock]
    by_cases hsame : c.st.openBlock = type
    · exact ⟨c, by rw [if_pos hsame], h, rfl, rfl, hsame⟩
    · have hfits := h.fits
      have hnone : c.st.openBlock = .none := by
        rcases hm with ⟨hmode, rfl⟩ | ⟨hmode, rfl⟩ <;> simpa [blockFits, hmode, hsame] using hfits
      have hlog := h.log
      rw [hnone] at hlog
      rw [if_neg hsame, if_neg (by simp [hnone])]
      refine ⟨_, rfl, ?_, rfl, rfl, rfl⟩
      rcases hm with ⟨hmode, rfl⟩ | ⟨hmode, rfl⟩
      · refine ⟨hlog.start _, ?_, ?_, ?_, h.emitted, h.inside, h.fresh, h.active⟩
        · simpa [List.filterMap_cons, AnthropicEvent.startedCall] using h.calls
        · simp [hargs]
        · simp [blockFits, hmode]
      · refine ⟨hlog.start _, ?_, ?_, ?_, h.emitted, h.inside, h.fresh, h.active⟩
        · simpa [List.filterMap_cons, AnthropicEvent.startedCall] using h.calls
        · simp [hargs]
        · simp [blockFits, hmode]
  obtain ⟨c', hc', hf, hmode, htool, hblock⟩ := hopen
  rw [anthropicShow, hc']
  split_ifs
  · exact ⟨c, rfl, h, rfl, rfl⟩
  · have hne : c'.st.openBlock ≠ .none := by
      rw [hblock]
      rcases hm with ⟨-, rfl⟩ | ⟨-, rfl⟩ <;> decide
    exact ⟨_, rfl, (hf.delta hne _).cursor _ _ _ _, hmode, htool⟩

theorem anthropicThinkPrefix_some {rawLen : Nat} {final : Bool} {st st' : AnthropicStream}
    (h : anthropicThinkPrefix raw rawLen final st = some st') :
    ∃ pos, st' = { st with emitPos := pos, checkedThinkPrefix := true } := by
  rw [anthropicThinkPrefix] at h
  split_ifs at h with hc
  · cases h
    exact ⟨st.emitPos, by rw [← hc]⟩
  all_goals
    cases h
    exact ⟨_, rfl⟩

/-- Thinking ends closed, in text mode or suppressed, or goes on. -/
theorem Following.thinking (h : Following c) (hm : c.st.mode = .thinking) (rawLen : Nat) (final : Bool) :
    ∃ c', anthropicThinking r raw rawLen final c = .ok c' ∧ Following c' ∧ c'.st.mode ≠ .tool ∧
      (final = true → c'.st.mode ≠ .thinking) := by
  rw [anthropicThinking]
  split
  · next hp =>
    refine ⟨c, rfl, h, by rw [hm]; decide, ?_⟩
    rintro rfl
    simp only [anthropicThinkPrefix, Bool.not_true, Bool.and_false, Bool.false_eq_true, if_false] at hp
    split_ifs at hp
  · next st hp =>
    obtain ⟨pos, rfl⟩ := anthropicThinkPrefix_some raw hp
    have h1 := h.cursor pos true c.st.sentThinking c.st.sentText
    have hclosed : ∀ {c' : AnthropicConn}, Following c' → c'.st.mode = .thinking → ∃ next,
        Following (anthropicSseCloseBlockLive r c') ∧
          (anthropicSseCloseBlockLive r c').st = { c'.st with openBlock := .none, nextIndex := next } :=
      fun hf hm' => hf.close r (hf.quiet (.inl hm')).2.2
    simp only
    split
    · next thinking after _ =>
      obtain ⟨c', hc', hf, hm', -⟩ := h1.show raw (.inl ⟨hm, rfl⟩) thinking.length
      obtain ⟨next, hf', hst⟩ := hclosed hf (hm'.trans hm)
      rw [hc']
      refine ⟨_, rfl, (hf'.setMode .text ?_ (by decide) ?_).cursor _ _ _ _, AnthropicStreamMode.noConfusion,
        fun _ => AnthropicStreamMode.noConfusion⟩
      · rw [hst]
        rfl
      · rw [hst]
        exact fun _ => (hf.quiet (.inl (hm'.trans hm))).1
    · split_ifs with hfinal
      · obtain ⟨c', hc', hf, hm', -⟩ := h1.show raw (.inl ⟨hm, rfl⟩) (rawLen - pos)
        obtain ⟨next, hf', hst⟩ := hclosed hf (hm'.trans hm)
        rw [hc']
        refine ⟨_, rfl, hf'.setMode .suppress ?_ (by decide) (fun hs => absurd rfl hs), AnthropicStreamMode.noConfusion,
          fun _ => AnthropicStreamMode.noConfusion⟩
        rw [hst]
        rfl
      · obtain ⟨c', hc', hf, hm', -⟩ := h1.show raw (.inl ⟨hm, rfl⟩)
          (utf8StreamSafeLen (((raw.drop pos).take (rawLen - pos - (thinkClose.length - 1)))) false)
        exact ⟨c', hc', hf, by rw [hm', hm]; decide, fun ht => absurd ht hfinal⟩

/-- Text ends closed, suppressed or in the tool reader at its marker, or goes on. -/
theorem Following.text (h : Following c) (hm : c.st.mode = .text) (rawLen : Nat) (final : Bool) :
    ∃ c', anthropicText r raw rawLen final c = .ok c' ∧ Following c' ∧
      (final = true → c'.st.mode = .suppress) ∧ c'.st.mode ≠ .thinking := by
  obtain ⟨c', hc', hf, hm', htool⟩ := h.show raw (.inr ⟨hm, rfl⟩)
    (textSafeLimit (raw.drop c.st.emitPos) (rawLen - c.st.emitPos) r.hasTools final)
  have htext := hm'.trans hm
  obtain ⟨next, hf', hst⟩ := hf.close r (hf.quiet (.inr htext)).2.2
  have hargs := (hf.quiet (.inr htext)).2.2
  have hcalls := hf'.calls
  rw [hst, hargs, (hf.quiet (.inr htext)).2.1] at hcalls
  have hsup : ∀ pos, Following { anthropicSseCloseBlockLive r c' with st := { (anthropicSseCloseBlockLive r c').st with
      emitPos := pos, mode := .suppress } } := fun pos =>
    (hf'.setMode .suppress (by rw [hst]; rfl) (by decide) (fun hs => absurd rfl hs)).cursor _ _ _ _
  simp only [anthropicText, hc', bind, Except.bind]
  generalize (if r.hasTools then findAnyToolStart (cstr (raw.drop c.st.emitPos)) else none) = found
  rcases found with _ | ⟨before, tail⟩
  case some =>
    cases final with
    | true => exact ⟨_, rfl, hsup _, fun _ => rfl, AnthropicStreamMode.noConfusion⟩
    | false =>
      -- the reader starts outside any call
      have hinit : ∃ active state syn pos, anthropicToolStreamInit (raw.take rawLen) (c.st.emitPos + before.length) =
          { AnthropicToolStream.zero with active := active, state := state, syn := syn, parsePos := pos } ∧
          (active = true → state = .betweenInvokes) := by
        rw [anthropicToolStreamInit]
        split
        · exact ⟨_, _, _, _, rfl, fun _ => rfl⟩
        · exact ⟨_, _, _, _, rfl, fun ha => Bool.noConfusion ha⟩
      obtain ⟨active, state, syn, pos, hinit, hstate⟩ := hinit
      simp only [hinit]
      refine ⟨_, rfl, ⟨?_, hcalls, ?_, ?_, ?_, ?_, ?_, ?_⟩, fun ht => Bool.noConfusion ht, ?_⟩
      · exact hf'.log
      · rw [hst]
        simp [AnthropicToolStream.zero]
      · rw [hst]
        rfl
      · exact fun _ => ⟨rfl, rfl⟩
      · intro _ ha
        rw [hstate ha]
        rfl
      · exact fun _ _ => rfl
      · exact hf'.active
      · cases active <;> exact AnthropicStreamMode.noConfusion
  · split_ifs with hfinal
    · exact ⟨_, rfl, hsup _, fun _ => rfl, AnthropicStreamMode.noConfusion⟩
    · exact ⟨c', rfl, hf, fun ht => absurd ht hfinal, by rw [htext]; decide⟩

theorem Following.tool (h : Following c) (hm : c.st.mode = .tool) (rawLen : Nat) :
    ∃ c', anthropicTool r raw rawLen c = .ok c' ∧ Following c' ∧ (c'.st.mode = .tool ∨ c'.st.mode = .suppress) := by
  obtain ⟨c', hc', hf, hm'⟩ := h.toolLoop r (raw.take rawLen) ((raw.take rawLen).length - c.st.tool.parsePos) hm
  rw [anthropicTool, anthropicToolStreamUpdate, hc']
  cases ha : c'.st.tool.active with
  | true =>
    refine ⟨_, rfl, ?_, .inl ?_⟩
    · simpa [ha] using hf
    · simpa [ha] using hm'
  | false =>
    refine ⟨_, rfl, ?_, .inr ?_⟩
    · have hfits : blockFits .suppress c'.st.openBlock = true := by
        have hfits := hf.fits
        rw [hm'] at hfits
        exact hfits
      simpa [ha] using hf.setMode .suppress hfits (by decide) fun hs => absurd rfl hs
    · simp [ha]

/-- One update, whatever its text. -/
theorem Following.update (h : Following c) (rawLen : Nat) (final : Bool) :
    ∃ c', anthropicSseStreamUpdate r raw rawLen final c = .ok c' ∧ Following c' ∧
      (final = true → c'.st.mode = .tool ∨ c'.st.mode = .suppress) := by
  have hlast : ∀ c2, Following c2 → (final = true → c2.st.mode = .tool ∨ c2.st.mode = .suppress) →
      ∃ c', (if c2.st.mode = .tool then anthropicTool r raw rawLen c2 else .ok c2) = .ok c' ∧ Following c' ∧
        (final = true → c'.st.mode = .tool ∨ c'.st.mode = .suppress) := by
    intro c2 hf2 hnext2
    split_ifs with hm
    · obtain ⟨c3, hc3, hf3, hmode⟩ := hf2.tool r raw hm rawLen
      exact ⟨c3, hc3, hf3, fun _ => hmode⟩
    · exact ⟨c2, rfl, hf2, hnext2⟩
  have hthen : ∀ c1, Following c1 → (final = true → c1.st.mode ≠ .thinking) →
      ∃ c', (if c1.st.mode = .text then
          anthropicText r raw rawLen final c1 >>= fun c => if c.st.mode = .tool then anthropicTool r raw rawLen c else .ok c
        else Except.ok c1 >>= fun c => if c.st.mode = .tool then anthropicTool r raw rawLen c else .ok c) = .ok c' ∧
        Following c' ∧ (final = true → c'.st.mode = .tool ∨ c'.st.mode = .suppress) := by
    intro c1 hf1 hnext1
    split_ifs with hm
    · obtain ⟨c2, hc2, hf2, hnext2, -⟩ := hf1.text r raw hm rawLen final
      rw [hc2]
      exact hlast c2 hf2 fun hfin => .inr (hnext2 hfin)
    · refine hlast c1 hf1 fun hfin => ?_
      have hnot := hnext1 hfin
      cases hmode : c1.st.mode with
      | thinking => exact absurd hmode hnot
      | text => exact absurd hmode hm
      | tool => exact .inl rfl
      | suppress => exact .inr rfl
  simp only [anthropicSseStreamUpdate, h.active, Bool.not_true, Bool.false_eq_true, if_false]
  split_ifs with hm
  · obtain ⟨c1, hc1, hf1, -, hnext⟩ := h.thinking r raw hm rawLen final
    rw [hc1]
    exact hthen c1 hf1 hnext
  · exact hthen c h fun _ => hm

end

/-! ## The end of a message -/

section
variable (r : AnthropicRequest) {c : AnthropicConn}

theorem toolBlock_sent (tc : LiveCall × Nat) : (anthropicToolBlock r c tc).sent = c.sent ++
    [.contentBlockStart c.st.nextIndex (.toolUse tc.2 (anthropicCallId r tc.1 tc.2) tc.1.name),
      .contentBlockDelta c.st.nextIndex (.inputJson (appendJsonObjectOrEmpty tc.1.arguments)),
      .contentBlockStop c.st.nextIndex] := by
  simp [anthropicToolBlock]

theorem toolBlocks_grow (calls : List (LiveCall × Nat)) :
    ∃ rest, (calls.foldl (anthropicToolBlock r) c).sent = c.sent ++ rest := by
  induction calls generalizing c with
  | nil => exact ⟨[], by simp⟩
  | cons tc calls ih =>
    obtain ⟨rest, hrest⟩ := ih (c := anthropicToolBlock r c tc)
    rw [toolBlock_sent, List.append_assoc] at hrest
    exact ⟨_, hrest⟩

theorem toolBlocks_cons (tc : LiveCall × Nat) (calls : List (LiveCall × Nat)) :
    ∃ rest, ((tc :: calls).foldl (anthropicToolBlock r) c).sent = c.sent ++
      .contentBlockStart c.st.nextIndex (.toolUse tc.2 (anthropicCallId r tc.1 tc.2) tc.1.name) :: rest := by
  obtain ⟨rest, hrest⟩ := toolBlocks_grow r (c := anthropicToolBlock r c tc) calls
  rw [toolBlock_sent, List.append_assoc] at hrest
  exact ⟨_, hrest⟩

/-- The finished calls, one block each. -/
theorem toolBlocks_followed (calls : List (LiveCall × Nat)) {next : Nat} (hlog : Followed c.sent false next)
    (hnext : c.st.nextIndex = next) :
    ∃ next', Followed (calls.foldl (anthropicToolBlock r) c).sent false next' ∧
      (calls.foldl (anthropicToolBlock r) c).sent.filterMap AnthropicEvent.startedCall =
        c.sent.filterMap AnthropicEvent.startedCall ++ calls.map Prod.snd := by
  induction calls generalizing c next with
  | nil => exact ⟨next, hlog, by simp⟩
  | cons tc calls ih =>
    subst hnext
    have hblock : Followed (anthropicToolBlock r c tc).sent false (c.st.nextIndex + 1) :=
      ((hlog.start _).delta (.inputJson (appendJsonObjectOrEmpty tc.1.arguments))).stop
    obtain ⟨next', hlog', hcalls⟩ := ih hblock rfl
    refine ⟨next', hlog', ?_⟩
    rw [List.foldl_cons, hcalls]
    simp [anthropicToolBlock, List.filterMap_cons, AnthropicEvent.startedCall]

/-- A message that ends between two blocks. -/
theorem stop_wellBracketed (fin : AnthropicFinish) {next : Nat} (hlog : Followed c.sent false next) :
    WellBracketed (anthropicSseStopLive fin c).sent := by
  obtain ⟨id, model, usage, mid, hsent, hmid⟩ := hlog.shape
  have haccepts := hlog.accepts
  rw [hsent, List.foldlM_cons, follow] at haccepts
  refine ⟨id, model, usage, mid, next, fin.finish, fin.completionTokens, ?_, (blocks_of_follow hmid).1 haccepts⟩
  simp [anthropicSseStopLive, hsent]

theorem startedOnce_of_range {log : List AnthropicEvent} {k n : Nat}
    (h : log.filterMap AnthropicEvent.startedCall = List.range k) (hk : n ≤ k) : StartedOnce log n := by
  intro i hi
  rw [h, List.count_eq_one_of_mem List.nodup_range]
  exact List.mem_range.mpr (by omega)

/-- The calls that the live projection left, after those it sent. -/
theorem leftCalls_range (k n : Nat) (calls : List LiveCall) (hn : calls.length = n) :
    List.range k ++ (calls.zipIdx.drop (min k n)).map Prod.snd = List.range (max k n) := by
  rw [List.map_drop, List.zipIdx_map_snd, hn]
  rcases Nat.le_total k n with hle | hle
  · rw [Nat.min_eq_left hle, Nat.max_eq_right hle, ← List.range_eq_range']
    conv => rhs; rw [← List.take_append_drop k (List.range n)]
    rw [List.take_range, Nat.min_eq_left hle]
  · rw [Nat.min_eq_right hle, Nat.max_eq_left hle, List.drop_eq_nil_of_le (by simp), List.append_nil]

/-- Outside a call, the message ends after whole blocks, with every call announced. -/
theorem epilogue_closed (fin : AnthropicFinish) (h : Following c) (hm : c.st.mode = .tool ∨ c.st.mode = .suppress)
    (ho : c.st.tool.argsOpen = false) :
    ∃ c', anthropicEpilogue r fin c = .ok c' ∧ WellBracketed c'.sent ∧ StartedOnce c'.sent fin.calls.length := by
  have hnone : c.st.openBlock = .none := by
    have hfits := h.fits
    have hnot : c.st.openBlock ≠ .tool := fun ht => by simp [h.call_open.mp ht] at ho
    rcases hm with hm | hm <;> simpa [blockFits, hm, hnot] using hfits
  have hlog := h.log
  have hcalls := h.calls
  rw [hnone] at hlog
  rw [ho] at hcalls
  have hstreamed : alreadyStreamed c.st fin.calls = min c.st.tool.index fin.calls.length := by
    rw [alreadyStreamed]
    cases he : c.st.tool.emittedAny with
    | true => rfl
    | false => rw [(h.emitted he).1]; rfl
  have hend : ∀ c1 : AnthropicConn, Followed c1.sent false c1.st.nextIndex → c1.st.tool = c.st.tool →
      c1.sent.filterMap AnthropicEvent.startedCall = c.sent.filterMap AnthropicEvent.startedCall →
      WellBracketed (anthropicSseStopLive fin (anthropicSseToolBlocksLive r fin.calls c1)).sent ∧
        StartedOnce (anthropicSseStopLive fin (anthropicSseToolBlocksLive r fin.calls c1)).sent fin.calls.length := by
    intro c1 hlog1 htool hcalls1
    have hstreamed1 : alreadyStreamed c1.st fin.calls = min c.st.tool.index fin.calls.length := by
      rw [← hstreamed, alreadyStreamed, alreadyStreamed, htool]
    obtain ⟨next', hlog', hall⟩ := toolBlocks_followed r (fin.calls.zipIdx.drop (alreadyStreamed c1.st fin.calls)) hlog1 rfl
    rw [hcalls1, hcalls, hstreamed1] at hall
    refine ⟨stop_wellBracketed fin hlog', startedOnce_of_range (k := max c.st.tool.index fin.calls.length) ?_ (by omega)⟩
    rw [← leftCalls_range c.st.tool.index fin.calls.length fin.calls rfl, ← hstreamed1]
    simpa [anthropicSseStopLive, anthropicSseToolBlocksLive, List.filterMap_cons, AnthropicEvent.startedCall, hstreamed1]
      using hall
  rw [anthropicEpilogue]
  split_ifs
  · rw [anthropicSseOpenBlock, if_neg (by rw [hnone]; decide), if_neg (by simp [hnone])]
    obtain ⟨hbr, honce⟩ := hend (anthropicSseCloseBlockLive r { sseEvent (.contentBlockStart c.st.nextIndex .text) c with
      st := { c.st with openBlock := .text } }) (hlog.start _).stop rfl
      (by simp [anthropicSseCloseBlockLive, List.filterMap_cons, AnthropicEvent.startedCall])
    exact ⟨_, rfl, hbr, honce⟩
  · obtain ⟨hbr, honce⟩ := hend c hlog rfl rfl
    exact ⟨_, rfl, hbr, honce⟩

/-- Inside a call, the client is lost at the next event, or never sees the end. -/
theorem epilogue_open (fin : AnthropicFinish) (h : Following c) (ho : c.st.tool.argsOpen = true) :
    ¬WellBracketed (Sends.sent (anthropicEpilogue r fin c)) := by
  intro hwell
  obtain ⟨n, hn⟩ := hwell.follow
  have hopen := h.open_eq ho
  have hlog : Followed c.sent true c.st.nextIndex := by
    have hlog := h.log
    rw [hopen] at hlog
    exact hlog
  -- whatever comes next is no delta and no stop
  have hlost : ∀ (e : AnthropicEvent) (rest : List AnthropicEvent), follow (true, c.st.nextIndex) e = none →
      (c.sent ++ e :: rest).foldlM follow (false, 0) = none := by
    intro e rest he
    rw [List.foldlM_append, hlog.accepts]
    simp [he]
  rw [anthropicEpilogue] at hn
  split_ifs at hn
  · rw [anthropicSseOpenBlock, if_neg (by rw [hopen]; decide), if_pos (by simp [hopen])] at hn
    have haccepts : (Sends.sent (.error c)).foldlM follow (false, 0) = some (true, c.st.nextIndex) := hlog.accepts
    exact Bool.noConfusion (Prod.mk.inj (Option.some.inj (haccepts.symm.trans hn))).1
  · have hsent : ∃ e rest, (anthropicSseStopLive fin (anthropicSseToolBlocksLive r fin.calls c)).sent = c.sent ++ e :: rest ∧
        follow (true, c.st.nextIndex) e = none := by
      rw [anthropicSseToolBlocksLive]
      cases fin.calls.zipIdx.drop (alreadyStreamed c.st fin.calls) with
      | nil =>
        exact ⟨.messageDelta fin.finish fin.completionTokens, [.messageStop], by simp [anthropicSseStopLive], rfl⟩
      | cons tc left =>
        obtain ⟨rest, hrest⟩ := toolBlocks_cons r (c := c) tc left
        exact ⟨.contentBlockStart c.st.nextIndex (.toolUse tc.2 (anthropicCallId r tc.1 tc.2) tc.1.name),
          rest ++ [.messageDelta fin.finish fin.completionTokens, .messageStop],
          by simp [anthropicSseStopLive, hrest, -List.foldl_cons], by simp [follow]⟩
    obtain ⟨e, rest, hsent, he⟩ := hsent
    change (anthropicSseStopLive fin (anthropicSseToolBlocksLive r fin.calls c)).sent.foldlM follow (false, 0) = _ at hn
    rw [hsent, hlost e rest he] at hn
    cases hn

end

/-! ## Whole streams -/

section
variable (r : AnthropicRequest)

theorem anthropicStart_following : Following (anthropicSseStartLive r) := by
  refine ⟨⟨rfl, r.id, r.model, r.usage, [], rfl, by simp⟩, rfl, ?_, ?_, fun _ => ⟨rfl, rfl⟩, ?_, fun _ _ => rfl, rfl⟩
  · simp [anthropicSseStartLive, AnthropicToolStream.zero]
  · simp [anthropicSseStartLive, blockFits]
  · simp [anthropicSseStartLive, AnthropicToolStream.zero]

theorem anthropicUpdates_following (updates : List (Bytes × Nat)) {c : AnthropicConn} (h : Following c) :
    ∃ c', anthropicUpdates r updates c = .ok c' ∧ Following c' := by
  induction updates generalizing c with
  | nil => exact ⟨c, rfl, h⟩
  | cons u updates ih =>
    obtain ⟨c1, hc1, hf1, -⟩ := h.update r u.1 u.2 false
    obtain ⟨c', hc', hf'⟩ := ih hf1
    refine ⟨c', ?_, hf'⟩
    rw [anthropicUpdates, List.foldlM_cons, hc1]
    exact hc'

/-- The stream after its last update, before the end of the message. -/
def anthropicLastUpdate (updates : List (Bytes × Nat)) (fin : AnthropicFinish) : Sends := do
  let c ← anthropicUpdates r updates (anthropicSseStartLive r)
  anthropicSseStreamUpdate r fin.raw fin.rawLen true c

/-- The text ends, or stops being readable, inside a call that the live projection has
    announced: the reader's `args_open`. -/
def endsInsideCall (updates : List (Bytes × Nat)) (fin : AnthropicFinish) : Bool :=
  match anthropicLastUpdate r updates fin with
  | .ok c => c.st.tool.argsOpen
  | .error c => c.st.tool.argsOpen

end

def toolRequest : AnthropicRequest := ⟨false, true, utf8 "m", utf8 "msg_1", utf8 "\x7b\x7d", fun _ => utf8 "toolu_1"⟩

/-- A text of generation that stops at its token limit inside a call. -/
def cutOffText : Bytes := utf8 "<tool_calls><invoke name=\"f\">"

def cutOffFinish : AnthropicFinish := ⟨cutOffText, cutOffText.length, [], utf8 "length", 9⟩

end Ds4.Server
