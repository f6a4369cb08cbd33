import Mathlib.Data.List.Range
import Ds4.EventLog
import Ds4.Server.LiveStream

/- The live stream of the Responses API (`responses_sse_stream_update`,
   `responses_sse_finish_live` of ds4_server.c): items are opened when there is
   something to show, closed at the end, and every event carries a number.

   Correspondence (C ↔ Lean):
     `responses_sse_emit_event`             ↔ `spliceSequence`, `responsesSseEmitEvent`
     the `buf_printf` bodies of the writers ↔ `OutputItem.json`, `StreamEvent.json`
     `responses_append_function_call_item`  ↔ `OutputItem.json` of a call
     `responses_tool_items_build`           ↔ `responsesToolItems`
     `text_stream_safe_limit`               ↔ `textSafeLimit`
   An event keeps the texts `json_escape` reads: a copy of some bytes of a buffer
   ends at its first NUL, and `shown` is that copy. The text of a stream is the
   buffer and the length the caller allows. ASSUMED: the connection takes every
   write. `random_bytes` is a parameter, the ids it makes. The `%d` counters stay
   far below `int`'s range: a token makes at most three events. -/
namespace Ds4.Server
open Bytes EventLog

/-! ## JSON pieces -/

/-- A string the writers put between quotes as it is. -/
def jsonQuoted (s : Bytes) : Bytes := 34 :: s ++ [34]

def jsonField (f : String × Bytes) : Bytes := jsonQuoted (utf8 f.1) ++ 58 :: f.2

def jsonObject (fields : List (String × Bytes)) : Bytes := 123 :: [44].intercalate (fields.map jsonField) ++ [125]

def jsonArray (items : List Bytes) : Bytes := 91 :: [44].intercalate items ++ [93]

def jsonInt (i : Int) : Bytes := utf8 (toString i)

/-- What `json_escape_n` copies. -/
def shown (text : Bytes) : Bytes := cstr text

/-! ## Items and events -/

structure ToolSchemaOrder where
  name : Bytes
  wireName : Option Bytes
  namespaceName : Option Bytes
  responsesToolSearch : Bool

def toolSchemaOrdersFind (orders : List ToolSchemaOrder) (name : Bytes) : Option ToolSchemaOrder :=
  orders.find? fun o => o.name = name

/-- A parsed call with its id, `[]` where it has none. -/
structure LiveCall extends ToolCall where
  id : Bytes

structure ResponsesToolItem where
  fcId : Bytes
  callId : Bytes
  isCustom : Bool
  outputIndex : Int

inductive ItemStatus
  | inProgress
  | completed
  | incomplete
  deriving DecidableEq

def ItemStatus.text : ItemStatus → String
  | .inProgress => "in_progress"
  | .completed => "completed"
  | .incomplete => "incomplete"

/-- An output item: reasoning with its summary, a message with its text (`none` while
    it has no content), a call. -/
inductive OutputItem
  | reasoning (id : Bytes) (status : ItemStatus) (summary : Bytes)
  | message (id : Bytes) (status : ItemStatus) (text : Option Bytes)
  | call (tc : LiveCall) (item : ResponsesToolItem) (status : ItemStatus) (withArgs : Bool)

def OutputItem.id : OutputItem → Bytes
  | .reasoning id _ _ => id
  | .message id _ _ => id
  | .call _ item _ _ => item.fcId

def responsesToolCallIsToolSearch (tc : LiveCall) (order : Option ToolSchemaOrder) : Bool :=
  tc.name = utf8 "tool_search" && order.all ToolSchemaOrder.responsesToolSearch

def wireNameOf (tc : LiveCall) (order : Option ToolSchemaOrder) : Bytes :=
  ((order.bind ToolSchemaOrder.wireName).getD tc.name)

def namespaceField (order : Option ToolSchemaOrder) : List (String × Bytes) :=
  ((order.bind ToolSchemaOrder.namespaceName).map fun ns => ("namespace", jsonEscape ns)).toList

def appendJsonObjectString (json : Bytes) : Bytes := jsonEscape (appendJsonObjectOrEmpty json)

def summaryText (text : Bytes) : Bytes := jsonObject [("type", jsonQuoted (utf8 "summary_text")), ("text", jsonEscape text)]

def outputText (text : Bytes) : Bytes :=
  jsonObject [("type", jsonQuoted (utf8 "output_text")), ("text", jsonEscape text), ("annotations", jsonArray [])]

def OutputItem.json (orders : List ToolSchemaOrder) : OutputItem → Bytes
  | .reasoning id status summary =>
    jsonObject [("id", jsonQuoted id), ("type", jsonQuoted (utf8 "reasoning")), ("status", jsonQuoted (utf8 status.text)),
      ("summary", jsonArray (if summary = [] then [] else [summaryText summary]))]
  | .message id status text =>
    jsonObject [("id", jsonQuoted id), ("type", jsonQuoted (utf8 "message")), ("status", jsonQuoted (utf8 status.text)),
      ("role", jsonQuoted (utf8 "assistant")), ("content", jsonArray (text.map outputText).toList)]
  | .call tc item status withArgs =>
    let order := toolSchemaOrdersFind orders tc.name
    if responsesToolCallIsToolSearch tc order then
      jsonObject [("id", jsonQuoted item.fcId), ("type", jsonQuoted (utf8 "tool_search_call")),
        ("status", jsonQuoted (utf8 status.text)), ("call_id", jsonQuoted item.callId), ("execution", jsonQuoted (utf8 "client")),
        ("arguments", if withArgs then appendJsonObjectOrEmpty tc.arguments else jsonObject [])]
    else
      jsonObject ([("id", jsonQuoted item.fcId),
        ("type", jsonQuoted (utf8 (if item.isCustom then "custom_tool_call" else "function_call"))),
        ("status", jsonQuoted (utf8 status.text)), ("name", jsonEscape (wireNameOf tc order))] ++ namespaceField order ++
        [("call_id", jsonEscape item.callId), (if item.isCustom then "input" else "arguments",
          if !withArgs then jsonQuoted [] else if item.isCustom then jsonEscape tc.arguments
          else appendJsonObjectString tc.arguments)])

/-- An item as the events name it: its output index and its id. -/
abbrev ItemRef := Int × Bytes

structure Usage where
  inputTokens : Int
  cachedTokens : Int
  cacheWriteTokens : Int
  outputTokens : Int

def Usage.json (u : Usage) : Bytes :=
  jsonObject [("input_tokens", jsonInt u.inputTokens),
    ("input_tokens_details", jsonObject [("cached_tokens", jsonInt u.cachedTokens),
      ("cache_write_tokens", jsonInt u.cacheWriteTokens)]),
    ("output_tokens", jsonInt u.outputTokens), ("output_tokens_details", jsonObject [("reasoning_tokens", jsonInt 0)]),
    ("total_tokens", jsonInt (u.inputTokens + u.outputTokens))]

inductive StreamEvent
  | created (responseId : Bytes) (createdAt : Int) (model : Bytes)
  | outputItemAdded (index : Int) (item : OutputItem)
  | outputItemDone (index : Int) (item : OutputItem)
  | summaryPartAdded (ref : ItemRef)
  | summaryTextDelta (ref : ItemRef) (delta : Bytes)
  | summaryTextDone (ref : ItemRef) (text : Bytes)
  | summaryPartDone (ref : ItemRef) (text : Bytes)
  | contentPartAdded (ref : ItemRef)
  | outputTextDelta (ref : ItemRef) (delta : Bytes)
  | outputTextDone (ref : ItemRef) (text : Bytes)
  | contentPartDone (ref : ItemRef) (text : Bytes)
  | argumentsDelta (ref : ItemRef) (arguments : Bytes)
  | argumentsDone (ref : ItemRef) (tc : LiveCall)
  | terminal (responseId : Bytes) (createdAt : Int) (model : Bytes) (finish : Bytes) (output : List OutputItem) (usage : Usage)

def isFinish (finish : Bytes) (name : String) : Bool := finish = utf8 name

/-- The event type a client routes the end of the response by. -/
def terminalType (finish : Bytes) : String :=
  if isFinish finish "error" then "response.failed"
  else if isFinish finish "length" then "response.incomplete" else "response.completed"

def responsesStatusForFinish (finish : Bytes) : String :=
  if isFinish finish "length" then "incomplete" else if isFinish finish "error" then "failed" else "completed"

def responsesItemStatusForFinish (finish : Bytes) : ItemStatus :=
  if isFinish finish "length" || isFinish finish "error" then .incomplete else .completed

def StreamEvent.type : StreamEvent → String
  | .created .. => "response.created"
  | .outputItemAdded .. => "response.output_item.added"
  | .outputItemDone .. => "response.output_item.done"
  | .summaryPartAdded .. => "response.reasoning_summary_part.added"
  | .summaryTextDelta .. => "response.reasoning_summary_text.delta"
  | .summaryTextDone .. => "response.reasoning_summary_text.done"
  | .summaryPartDone .. => "response.reasoning_summary_part.done"
  | .contentPartAdded .. => "response.content_part.added"
  | .outputTextDelta .. => "response.output_text.delta"
  | .outputTextDone .. => "response.output_text.done"
  | .contentPartDone .. => "response.content_part.done"
  | .argumentsDelta .. => "response.function_call_arguments.delta"
  | .argumentsDone .. => "response.function_call_arguments.done"
  | .terminal _ _ _ finish _ _ => terminalType finish

def itemFields (ref : ItemRef) : List (String × Bytes) :=
  [("item_id", jsonQuoted ref.2), ("output_index", jsonInt ref.1)]

def summaryFields (ref : ItemRef) : List (String × Bytes) := itemFields ref ++ [("summary_index", jsonInt 0)]

def contentFields (ref : ItemRef) : List (String × Bytes) := itemFields ref ++ [("content_index", jsonInt 0)]

/-- What a failed or cut off response says about it. -/
def terminalDetails (finish : Bytes) : List (String × Bytes) :=
  if isFinish finish "error" then
    [("error", jsonObject [("code", jsonQuoted (utf8 "server_error")), ("message", jsonQuoted (utf8 "generation failed"))])]
  else if isFinish finish "length" then [("incomplete_details", jsonObject [("reason", jsonQuoted (utf8 "max_tokens"))])]
  else []

def StreamEvent.fields (orders : List ToolSchemaOrder) : StreamEvent → List (String × Bytes)
  | .created responseId createdAt model =>
    [("response", jsonObject [("id", jsonQuoted responseId), ("object", jsonQuoted (utf8 "response")),
      ("created_at", jsonInt createdAt), ("status", jsonQuoted (utf8 "in_progress")), ("model", jsonEscape model),
      ("output", jsonArray [])])]
  | .outputItemAdded index item => [("output_index", jsonInt index), ("item", item.json orders)]
  | .outputItemDone index item => [("output_index", jsonInt index), ("item", item.json orders)]
  | .summaryPartAdded ref => summaryFields ref ++ [("part", summaryText [])]
  | .summaryTextDelta ref delta => summaryFields ref ++ [("delta", jsonEscape delta)]
  | .summaryTextDone ref text => summaryFields ref ++ [("text", jsonEscape text)]
  | .summaryPartDone ref text => summaryFields ref ++ [("part", summaryText text)]
  | .contentPartAdded ref => contentFields ref ++ [("part", outputText [])]
  | .outputTextDelta ref delta => contentFields ref ++ [("delta", jsonEscape delta)]
  | .outputTextDone ref text => contentFields ref ++ [("text", jsonEscape text)]
  | .contentPartDone ref text => contentFields ref ++ [("part", outputText text)]
  | .argumentsDelta ref arguments => itemFields ref ++ [("delta", appendJsonObjectString arguments)]
  | .argumentsDone ref tc =>
    let order := toolSchemaOrdersFind orders tc.name
    itemFields ref ++ [("name", jsonEscape (wireNameOf tc order))] ++ namespaceField order ++
      [("arguments", appendJsonObjectString tc.arguments)]
  | .terminal responseId createdAt model finish output usage =>
    [("response", jsonObject ([("id", jsonQuoted responseId), ("object", jsonQuoted (utf8 "response")),
      ("created_at", jsonInt createdAt), ("status", jsonQuoted (utf8 (responsesStatusForFinish finish))),
      ("model", jsonEscape model)] ++ terminalDetails finish ++
      [("output", jsonArray (output.map (OutputItem.json orders))), ("usage", usage.json)]))]

def StreamEvent.json (orders : List ToolSchemaOrder) (e : StreamEvent) : Bytes :=
  jsonObject (("type", jsonQuoted (utf8 e.type)) :: e.fields orders)

/-! ## Sending -/

inductive ResponsesStreamMode
  | thinking
  | text
  | suppress
  deriving DecidableEq

structure ResponsesStream where
  mode : ResponsesStreamMode
  emitPos : Nat
  active : Bool
  checkedThinkPrefix : Bool
  reasoningItemOpened : Bool
  reasoningItemClosed : Bool
  reasoningSummaryStarted : Bool
  reasoningClosedNaturally : Bool
  messageItemOpened : Bool
  messageTextPartOpen : Bool
  messageItemClosed : Bool
  reasoningEmittedAny : Bool
  messageEmittedAny : Bool
  reasoningText : Bytes
  messageText : Bytes
  responseId : Bytes
  reasoningId : Bytes
  messageId : Bytes
  reasoningIndex : Int
  messageIndex : Int
  nextOutputIndex : Int
  sequence : Nat

/-- What the stream reads of its request. -/
structure ResponsesRequest where
  thinkEnabled : Bool
  reasoningSummaryEmit : Bool
  hasTools : Bool
  model : Bytes
  toolOrders : List ToolSchemaOrder
  cacheReadTokens : Int
  cacheWriteTokens : Int

/-- An event as it went out, with the number spliced into it. -/
structure SentEvent where
  event : StreamEvent
  sequence : Option Nat
  wire : Bytes

structure ResponsesConn where
  st : ResponsesStream
  sent : List SentEvent

/-- The bytes of a JSON string up to its closing quote, and from there on. -/
def skipQuoted : Bytes → Bytes × Bytes
  | [] => ([], [])
  | 34 :: r => ([], 34 :: r)
  | 92 :: d :: r => (92 :: d :: (skipQuoted r).1, (skipQuoted r).2)
  | c :: r => (c :: (skipQuoted r).1, (skipQuoted r).2)

def typeHead : Bytes := utf8 "\x7b\"type\":\""

/-- The number after the value of `type`, `none` for a body without one. -/
def spliceSequence (body : Bytes) (sequence : Nat) : Option Bytes :=
  if startsWith typeHead body then
    match skipQuoted (body.drop typeHead.length) with
    | (value, 34 :: rest) =>
      some (typeHead ++ value ++ 34 :: utf8 ",\"sequence_number\":" ++ utf8 (toString sequence) ++ rest)
    | _ => none
  else none

def sseFrame (body : Bytes) : Bytes := utf8 "data: " ++ body ++ utf8 "\n\n"

def responsesSseEmitEvent (orders : List ToolSchemaOrder) (e : StreamEvent) (c : ResponsesConn) : ResponsesConn :=
  let body := cstr (e.json orders)
  match spliceSequence body c.st.sequence with
  | some wire =>
    { st := { c.st with sequence := c.st.sequence + 1 }, sent := c.sent ++ [⟨e, some c.st.sequence, sseFrame wire⟩] }
  | none => { c with sent := c.sent ++ [⟨e, none, sseFrame body⟩] }

structure ResponsesIds where
  response : Bytes
  reasoning : Bytes
  message : Bytes

def responsesStreamInit (r : ResponsesRequest) (ids : ResponsesIds) : ResponsesStream where
  mode := if r.thinkEnabled then .thinking else .text
  emitPos := 0
  active := false
  checkedThinkPrefix := false
  reasoningItemOpened := false
  reasoningItemClosed := false
  reasoningSummaryStarted := false
  reasoningClosedNaturally := false
  messageItemOpened := false
  messageTextPartOpen := false
  messageItemClosed := false
  reasoningEmittedAny := false
  messageEmittedAny := false
  reasoningText := []
  messageText := []
  responseId := ids.response
  reasoningId := ids.reasoning
  messageId := ids.message
  reasoningIndex := -1
  messageIndex := -1
  nextOutputIndex := 0
  sequence := 0

/-! ## Items of the text -/

section
variable (orders : List ToolSchemaOrder)

def reasoningItem (status : ItemStatus) (st : ResponsesStream) : OutputItem :=
  .reasoning st.reasoningId status (shown st.reasoningText)

def messageItem (status : ItemStatus) (st : ResponsesStream) : OutputItem :=
  .message st.messageId status (some (shown st.messageText))

def ResponsesStream.reasoningRef (st : ResponsesStream) : ItemRef := (st.reasoningIndex, st.reasoningId)

def ResponsesStream.messageRef (st : ResponsesStream) : ItemRef := (st.messageIndex, st.messageId)

/-- The item takes the next index and is announced. -/
def openReasoning (c : ResponsesConn) : ResponsesConn :=
  if c.st.reasoningItemOpened then c
  else
    let st := { c.st with reasoningIndex := c.st.nextOutputIndex, nextOutputIndex := c.st.nextOutputIndex + 1 }
    let c := responsesSseEmitEvent orders (.outputItemAdded st.reasoningIndex (.reasoning st.reasoningId .inProgress []))
      { c with st := st }
    { c with st := { c.st with reasoningItemOpened := true } }

def startSummary (c : ResponsesConn) : ResponsesConn :=
  if c.st.reasoningSummaryStarted then c
  else
    let c := responsesSseEmitEvent orders (.summaryPartAdded c.st.reasoningRef) c
    { c with st := { c.st with reasoningSummaryStarted := true } }

/-- Some bytes of reasoning for a client that asked for it. -/
def emitReasoning (text : Bytes) (c : ResponsesConn) : ResponsesConn :=
  let c := startSummary orders (openReasoning orders c)
  let c := responsesSseEmitEvent orders (.summaryTextDelta c.st.reasoningRef (shown text)) c
  { c with st := { c.st with reasoningText := c.st.reasoningText ++ text, reasoningEmittedAny := true } }

def openMessage (c : ResponsesConn) : ResponsesConn :=
  if c.st.messageItemOpened then c
  else
    let st := { c.st with messageIndex := c.st.nextOutputIndex, nextOutputIndex := c.st.nextOutputIndex + 1 }
    let c := responsesSseEmitEvent orders (.outputItemAdded st.messageIndex (.message st.messageId .inProgress none))
      { c with st := st }
    { c with st := { c.st with messageItemOpened := true } }

def startTextPart (c : ResponsesConn) : ResponsesConn :=
  if c.st.messageTextPartOpen then c
  else
    let c := responsesSseEmitEvent orders (.contentPartAdded c.st.messageRef) c
    { c with st := { c.st with messageTextPartOpen := true } }

def emitMessage (text : Bytes) (c : ResponsesConn) : ResponsesConn :=
  let c := startTextPart orders (openMessage orders c)
  let c := responsesSseEmitEvent orders (.outputTextDelta c.st.messageRef (shown text)) c
  { c with st := { c.st with messageText := c.st.messageText ++ text, messageEmittedAny := true } }

/-- Reasoning is whole only if its closing tag was seen. -/
def reasoningStatus (st : ResponsesStream) : ItemStatus :=
  if st.reasoningClosedNaturally then .completed else .incomplete

def responsesSseReasoningDone (c : ResponsesConn) : ResponsesConn :=
  let c := responsesSseEmitEvent orders (.summaryTextDone c.st.reasoningRef (shown c.st.reasoningText)) c
  let c :=
    if c.st.reasoningSummaryStarted then
      responsesSseEmitEvent orders (.summaryPartDone c.st.reasoningRef (shown c.st.reasoningText)) c
    else c
  responsesSseEmitEvent orders (.outputItemDone c.st.reasoningIndex (reasoningItem (reasoningStatus c.st) c.st)) c

def responsesSseMessageDone (finish : Bytes) (c : ResponsesConn) : ResponsesConn :=
  let c := responsesSseEmitEvent orders (.outputTextDone c.st.messageRef (shown c.st.messageText)) c
  let c := responsesSseEmitEvent orders (.contentPartDone c.st.messageRef (shown c.st.messageText)) c
  responsesSseEmitEvent orders (.outputItemDone c.st.messageIndex (messageItem (responsesItemStatusForFinish finish) c.st)) c

end

/-! ## Updates -/

/-- How many of the `n` bytes allowed of `rest` can be shown. A marker is searched in
    the whole text, past the length allowed. -/
def textSafeLimit (rest : Bytes) (n : Nat) (hasTools final : Bool) : Nat :=
  if n = 0 then 0
  else
    let seg := rest.take n
    match if hasTools then findAnyToolStart (cstr rest) else none with
    | some (before, _) => trimmedLen before
    | none =>
      if hasTools && !final then
        let limit := trimmedLen seg
        let limit :=
          match lastByteTail 60 80 seg with
          | some tail => min (beforeTail seg tail) limit
          | none => limit
        utf8StreamSafeLen (seg.take (trimmedLen (seg.take limit))) final
      else utf8StreamSafeLen seg final

/-- `<think>` at the start of the text is not shown; `none` waits for it. -/
def responsesThinkPrefix (raw : Bytes) (rawLen : Nat) (final : Bool) (st : ResponsesStream) : Option ResponsesStream :=
  if st.checkedThinkPrefix then some st
  else if rawLen < thinkOpen.length && startsWith (raw.take rawLen) thinkOpen && !final then none
  else some { st with
    emitPos := if thinkOpen.length ≤ rawLen && startsWith thinkOpen raw then thinkOpen.length else st.emitPos
    checkedThinkPrefix := true }

/-- Some bytes from the cursor on, as reasoning. -/
def showReasoning (r : ResponsesRequest) (raw : Bytes) (k : Nat) (c : ResponsesConn) : ResponsesConn :=
  if k = 0 then c
  else
    let c := if r.reasoningSummaryEmit then emitReasoning r.toolOrders ((raw.drop c.st.emitPos).take k) c else c
    { c with st := { c.st with emitPos := c.st.emitPos + k } }

def showText (r : ResponsesRequest) (raw : Bytes) (k : Nat) (c : ResponsesConn) : ResponsesConn :=
  if k = 0 then c
  else
    let c := emitMessage r.toolOrders ((raw.drop c.st.emitPos).take k) c
    { c with st := { c.st with emitPos := c.st.emitPos + k } }

def responsesThinking (r : ResponsesRequest) (raw : Bytes) (rawLen : Nat) (final : Bool) (c : ResponsesConn) :
    ResponsesConn :=
  match responsesThinkPrefix raw rawLen final c.st with
  | none => c
  | some st =>
    let rest := raw.drop st.emitPos
    let n := rawLen - st.emitPos
    match strstr thinkClose (cstr rest) with
    | some (reasoning, _) =>
      let c := showReasoning r raw reasoning.length { c with st := st }
      { c with st := { c.st with
        emitPos := st.emitPos + reasoning.length + thinkClose.length, mode := .text, reasoningClosedNaturally := true } }
    | none =>
      if final then
        let c := showReasoning r raw n { c with st := st }
        { c with st := { c.st with mode := .suppress } }
      else showReasoning r raw (utf8StreamSafeLen (rest.take (n - (thinkClose.length - 1))) false) { c with st := st }

def responsesText (r : ResponsesRequest) (raw : Bytes) (rawLen : Nat) (final : Bool) (c : ResponsesConn) : ResponsesConn :=
  let pos := c.st.emitPos
  let rest := raw.drop pos
  let c := showText r raw (textSafeLimit rest (rawLen - pos) r.hasTools final) c
  match if r.hasTools then findAnyToolStart (cstr rest) else none with
  | some (before, _) => { c with st := { c.st with emitPos := pos + before.length, mode := .suppress } }
  | none => if final then { c with st := { c.st with mode := .suppress } } else c

def responsesSseStreamUpdate (r : ResponsesRequest) (raw : Bytes) (rawLen : Nat) (final : Bool) (c : ResponsesConn) :
    ResponsesConn :=
  if !c.st.active then c
  else
    let c := if c.st.mode = .thinking then responsesThinking r raw rawLen final c else c
    if c.st.mode = .text then responsesText r raw rawLen final c else c

/-! ## The end of the stream -/

/-- What is handed to the stream when the text is finished. -/
structure FinishArgs where
  raw : Bytes
  rawLen : Nat
  recoveredContent : Bool
  calls : List LiveCall
  finish : Bytes
  promptTokens : Int
  completionTokens : Int
  /-- The `fc_` and `call_` ids made for the calls. -/
  newIds : Nat → Bytes × Bytes

/-- A call keeps the id it came with, cut to 63 bytes. -/
def responsesToolItems (newIds : Nat → Bytes × Bytes) (start : Int) (calls : List LiveCall) :
    List (LiveCall × ResponsesToolItem) :=
  calls.zipIdx.map fun tc =>
    (tc.1, { fcId := (newIds tc.2).1
             callId := if tc.1.id = [] then (newIds tc.2).2 else tc.1.id.take 63
             isCustom := false
             outputIndex := start + tc.2 })

/-- A call whose arguments are streamed as text. -/
def streamsArguments (orders : List ToolSchemaOrder) (tc : LiveCall × ResponsesToolItem) : Bool :=
  !(tc.2.isCustom || responsesToolCallIsToolSearch tc.1 (toolSchemaOrdersFind orders tc.1.name))

def emitCall (orders : List ToolSchemaOrder) (finish : Bytes) (tc : LiveCall × ResponsesToolItem) (c : ResponsesConn) :
    ResponsesConn :=
  let ref : ItemRef := (tc.2.outputIndex, tc.2.fcId)
  let c := responsesSseEmitEvent orders (.outputItemAdded tc.2.outputIndex (.call tc.1 tc.2 .inProgress false)) c
  let c :=
    if streamsArguments orders tc then
      responsesSseEmitEvent orders (.argumentsDone ref tc.1)
        (responsesSseEmitEvent orders (.argumentsDelta ref tc.1.arguments) c)
    else c
  responsesSseEmitEvent orders
    (.outputItemDone tc.2.outputIndex (.call tc.1 tc.2 (responsesItemStatusForFinish finish) true)) c

def clampUsageTokens (value max : Int) : Int :=
  if value < 0 then 0 else if 0 ≤ max ∧ max < value then max else value

def responsesUsage (r : ResponsesRequest) (inputTokens outputTokens : Int) : Usage :=
  let cached := clampUsageTokens r.cacheReadTokens inputTokens
  ⟨inputTokens, cached, clampUsageTokens r.cacheWriteTokens (inputTokens - cached), outputTokens⟩

/-- The items of the text that the last event lists. -/
def shownItems (finish : Bytes) (st : ResponsesStream) : List OutputItem :=
  (if st.reasoningEmittedAny then [reasoningItem (reasoningStatus st) st] else []) ++
    if st.messageEmittedAny then [messageItem (responsesItemStatusForFinish finish) st] else []

def callItem (finish : Bytes) (tc : LiveCall × ResponsesToolItem) : OutputItem :=
  .call tc.1 tc.2 (responsesItemStatusForFinish finish) true

def responsesSseCompleted (r : ResponsesRequest) (createdAt : Int) (fin : FinishArgs)
    (items : List (LiveCall × ResponsesToolItem)) (c : ResponsesConn) : ResponsesConn :=
  responsesSseEmitEvent r.toolOrders (.terminal c.st.responseId createdAt r.model fin.finish
    (shownItems fin.finish c.st ++ items.map (callItem fin.finish))
    (responsesUsage r fin.promptTokens fin.completionTokens)) c

def closeReasoning (r : ResponsesRequest) (c : ResponsesConn) : ResponsesConn :=
  if c.st.reasoningItemOpened && !c.st.reasoningItemClosed then
    let c := responsesSseReasoningDone r.toolOrders c
    { c with st := { c.st with reasoningItemClosed := true } }
  else c

/-- The bytes that were kept back for a tool call that turned out to be text. -/
def recoverTail (r : ResponsesRequest) (fin : FinishArgs) (c : ResponsesConn) : ResponsesConn :=
  if fin.recoveredContent && c.st.emitPos < fin.rawLen then
    showText r fin.raw (fin.rawLen - c.st.emitPos) c
  else c

def closeMessage (r : ResponsesRequest) (finish : Bytes) (c : ResponsesConn) : ResponsesConn :=
  if c.st.messageItemOpened && !c.st.messageItemClosed then
    let c := responsesSseMessageDone r.toolOrders finish c
    { c with st := { c.st with messageItemClosed := true } }
  else c

def responsesSseFinishLive (r : ResponsesRequest) (createdAt : Int) (fin : FinishArgs) (c : ResponsesConn) : ResponsesConn :=
  let c := responsesSseStreamUpdate r fin.raw fin.rawLen true c
  let c := closeMessage r fin.finish (recoverTail r fin (closeReasoning r c))
  let items := responsesToolItems fin.newIds c.st.nextOutputIndex fin.calls
  let c := { c with st := { c.st with nextOutputIndex := c.st.nextOutputIndex + fin.calls.length } }
  let c := items.foldl (fun c tc => emitCall r.toolOrders fin.finish tc c) c
  responsesSseCompleted r createdAt fin items c

/-- The stream as the server starts it. -/
def responsesStart (r : ResponsesRequest) (ids : ResponsesIds) (createdAt : Int) : ResponsesConn :=
  responsesSseEmitEvent r.toolOrders (.created ids.response createdAt r.model)
    ⟨{ responsesStreamInit r ids with active := true }, []⟩

/-- Updates with the buffer and the length allowed at each. -/
def responsesUpdates (r : ResponsesRequest) (updates : List (Bytes × Nat)) (c : ResponsesConn) : ResponsesConn :=
  updates.foldl (fun c u => responsesSseStreamUpdate r u.1 u.2 false c) c

/-- Everything sent for a request, from the start of the stream to its end. -/
def responsesRun (r : ResponsesRequest) (ids : ResponsesIds) (createdAt : Int) (updates : List (Bytes × Nat))
    (fin : FinishArgs) : List SentEvent :=
  (responsesSseFinishLive r createdAt fin (responsesUpdates r updates (responsesStart r ids createdAt))).sent

end Ds4.Server
