import Ds4.Server.ResponsesStream

/- The live stream of the Anthropic API (`anthropic_sse_stream_update`,
   `anthropic_sse_finish_live` of ds4_server.c): blocks of thinking, text and tool
   use, each announced, filled and closed under one index counter.

   Correspondence (C ↔ Lean):
     `anthropic_stream`, `anthropic_tool_stream`  ↔ `AnthropicStream`, `AnthropicToolStream`
     `anthropic_sse_open_block`, `anthropic_sse_close_block_live`, …
                                                  ↔ `anthropicSseOpenBlock`, `anthropicSseCloseBlockLive`, …
     one round of `anthropic_tool_stream_update`  ↔ `anthropicToolStreamStep`
     the `bool` of a writer                       ↔ `Sends`: an error keeps what was sent
   ASSUMED: the connection takes every write, so a writer fails only where the
   source refuses to write. The ids made for the calls are a parameter. The text
   of a stream is the buffer and the length the caller allows; the tool reader
   sees that length only. -/
namespace Ds4.Server
open Bytes

/-! ## Events -/

/-- A block as it is announced; `call` is the number of the tool call, which is not sent. -/
inductive AnthropicBlock
  | thinking
  | text
  | toolUse (call : Nat) (id name : Bytes)

inductive AnthropicDelta
  | thinking (text : Bytes)
  | signature (id : Bytes)
  | text (text : Bytes)
  | inputJson (fragment : Bytes)

inductive AnthropicEvent
  | messageStart (id model : Bytes) (usage : Bytes)
  | contentBlockStart (index : Nat) (block : AnthropicBlock)
  | contentBlockDelta (index : Nat) (delta : AnthropicDelta)
  | contentBlockStop (index : Nat)
  | messageDelta (finish : Bytes) (outputTokens : Int)
  | messageStop

def anthropicStopReason (finish : Bytes) : String :=
  if isFinish finish "tool_calls" then "tool_use" else if isFinish finish "length" then "max_tokens" else "end_turn"

def AnthropicBlock.json : AnthropicBlock → Bytes
  | .thinking => jsonObject [("type", jsonQuoted (utf8 "thinking")), ("thinking", jsonQuoted []), ("signature", jsonQuoted [])]
  | .text => jsonObject [("type", jsonQuoted (utf8 "text")), ("text", jsonQuoted [])]
  | .toolUse _ id name =>
    jsonObject [("type", jsonQuoted (utf8 "tool_use")), ("id", jsonEscape id), ("name", jsonEscape name), ("input", jsonObject [])]

def AnthropicDelta.json : AnthropicDelta → Bytes
  | .thinking t => jsonObject [("type", jsonQuoted (utf8 "thinking_delta")), ("thinking", jsonEscape t)]
  | .signature id => jsonObject [("type", jsonQuoted (utf8 "signature_delta")), ("signature", jsonEscape id)]
  | .text t => jsonObject [("type", jsonQuoted (utf8 "text_delta")), ("text", jsonEscape t)]
  | .inputJson fragment =>
    jsonObject [("type", jsonQuoted (utf8 "input_json_delta")), ("partial_json", jsonEscape fragment)]

def AnthropicEvent.type : AnthropicEvent → String
  | .messageStart .. => "message_start"
  | .contentBlockStart .. => "content_block_start"
  | .contentBlockDelta .. => "content_block_delta"
  | .contentBlockStop .. => "content_block_stop"
  | .messageDelta .. => "message_delta"
  | .messageStop => "message_stop"

def AnthropicEvent.fields : AnthropicEvent → List (String × Bytes)
  | .messageStart id model usage =>
    [("message", jsonObject [("id", jsonQuoted id), ("type", jsonQuoted (utf8 "message")), ("role", jsonQuoted (utf8 "assistant")),
      ("model", jsonEscape model), ("content", jsonArray []), ("stop_reason", utf8 "null"), ("stop_sequence", utf8 "null"),
      ("usage", usage)])]
  | .contentBlockStart index block => [("index", jsonInt index), ("content_block", block.json)]
  | .contentBlockDelta index delta => [("index", jsonInt index), ("delta", delta.json)]
  | .contentBlockStop index => [("index", jsonInt index)]
  | .messageDelta finish outputTokens =>
    [("delta", jsonObject [("stop_reason", jsonEscape (utf8 (anthropicStopReason finish))), ("stop_sequence", utf8 "null")]),
      ("usage", jsonObject [("output_tokens", jsonInt outputTokens)])]
  | .messageStop => []

/-- The bytes `sse_event` writes. -/
def AnthropicEvent.wire (e : AnthropicEvent) : Bytes :=
  utf8 "event: " ++ utf8 e.type ++ utf8 "\ndata: " ++
    jsonObject (("type", jsonQuoted (utf8 e.type)) :: e.fields) ++ utf8 "\n\n"

/-! ## The stream -/

inductive AnthropicStreamMode
  | thinking
  | text
  | tool
  | suppress
  deriving DecidableEq

inductive AnthropicBlockType
  | none
  | thinking
  | text
  | tool
  deriving DecidableEq

structure AnthropicToolStream where
  state : DsmlToolState
  syn : DsmlSyntax
  parsePos : Nat
  index : Nat
  active : Bool
  emittedAny : Bool
  argsOpen : Bool
  firstParam : Bool
  paramIsString : Bool

structure AnthropicStream where
  mode : AnthropicStreamMode
  openBlock : AnthropicBlockType
  nextIndex : Nat
  emitPos : Nat
  active : Bool
  checkedThinkPrefix : Bool
  sentThinking : Bool
  sentText : Bool
  tool : AnthropicToolStream

/-- What the stream reads of its request, the response's id and the ids made for calls. -/
structure AnthropicRequest where
  thinkEnabled : Bool
  hasTools : Bool
  model : Bytes
  id : Bytes
  usage : Bytes
  toolStreamId : Nat → Bytes

structure AnthropicConn where
  st : AnthropicStream
  sent : List AnthropicEvent
  wire : Bytes

/-- A writer's `true` or `false`, with the connection as it leaves it. -/
abbrev Sends := Except AnthropicConn AnthropicConn

def sseEvent (e : AnthropicEvent) (c : AnthropicConn) : AnthropicConn :=
  { c with sent := c.sent ++ [e], wire := c.wire ++ e.wire }

/-- The cleared tool stream of a new stream. -/
def AnthropicToolStream.zero : AnthropicToolStream where
  state := .betweenInvokes
  syn := dsmlSyntax .plain
  parsePos := 0
  index := 0
  active := false
  emittedAny := false
  argsOpen := false
  firstParam := false
  paramIsString := false

def anthropicSseStartLive (r : AnthropicRequest) : AnthropicConn :=
  sseEvent (.messageStart r.id r.model r.usage)
    { st := { mode := if r.thinkEnabled then .thinking else .text
              openBlock := .none
              nextIndex := 0
              emitPos := 0
              active := true
              checkedThinkPrefix := false
              sentThinking := false
              sentText := false
              tool := .zero }
      sent := []
      wire := [] }

/-! ## Blocks -/

/-- A thinking or text block, unless it is the open one. -/
def anthropicSseOpenBlock (type : AnthropicBlockType) (c : AnthropicConn) : Sends :=
  if c.st.openBlock = type then .ok c
  else if c.st.openBlock ≠ .none then .error c
  else
    let block := if type = .thinking then AnthropicBlock.thinking else .text
    let c := sseEvent (.contentBlockStart c.st.nextIndex block) c
    .ok { c with st := { c.st with openBlock := type } }

def anthropicSseOpenToolBlock (toolId name : Bytes) (c : AnthropicConn) : Sends :=
  if c.st.openBlock = .tool then .ok c
  else if c.st.openBlock ≠ .none then .error c
  else
    let c := sseEvent (.contentBlockStart c.st.nextIndex (.toolUse c.st.tool.index toolId name)) c
    .ok { c with st := { c.st with openBlock := .tool } }

/-- Some bytes of thinking or of text. -/
def anthropicSseDeltaLive (type : AnthropicBlockType) (text : Bytes) (c : AnthropicConn) : AnthropicConn :=
  let delta := if type = .thinking then AnthropicDelta.thinking (shown text) else .text (shown text)
  sseEvent (.contentBlockDelta c.st.nextIndex delta) c

def anthropicSseToolDeltaLive (text : Bytes) (c : AnthropicConn) : AnthropicConn :=
  if text = [] then c else sseEvent (.contentBlockDelta c.st.nextIndex (.inputJson (shown text))) c

def anthropicSseCloseBlockLive (r : AnthropicRequest) (c : AnthropicConn) : AnthropicConn :=
  if c.st.openBlock = .none then c
  else
    let c :=
      if c.st.openBlock = .thinking then sseEvent (.contentBlockDelta c.st.nextIndex (.signature r.id)) c else c
    let c := sseEvent (.contentBlockStop c.st.nextIndex) c
    { c with st := { c.st with openBlock := .none, nextIndex := c.st.nextIndex + 1 } }

/-! ## The tool reader -/

/-- At a marker the reader starts after it; elsewhere it is an error. -/
def anthropicToolStreamInit (raw : Bytes) (pos : Nat) : AnthropicToolStream :=
  match markerStyle (raw.drop pos) with
  | some style =>
    let syn := dsmlSyntax style
    { AnthropicToolStream.zero with active := true, syn := syn, parsePos := pos + syn.toolCallsStart.length }
  | none => { AnthropicToolStream.zero with state := .error }

def AnthropicConn.setTool (c : AnthropicConn) (ts : AnthropicToolStream) : AnthropicConn :=
  { c with st := { c.st with tool := ts } }

def anthropicToolStreamFail (c : AnthropicConn) : AnthropicConn :=
  c.setTool { c.st.tool with active := false, state := .error }

/-- `none` while the tag is incomplete. -/
def anthropicToolStartInvoke (r : AnthropicRequest) (raw : Bytes) (c : AnthropicConn) : Sends :=
  match splitTag (raw.drop c.st.tool.parsePos) with
  | none => .ok c
  | some (tag, _) =>
    match dsmlAttr tag (utf8 "name") with
    | none => .ok (anthropicToolStreamFail c)
    | some name => do
      let c ← anthropicSseOpenToolBlock (r.toolStreamId c.st.tool.index) name c
      let c := anthropicSseToolDeltaLive (utf8 "\x7b") c
      .ok (c.setTool { c.st.tool with
        emittedAny := true, argsOpen := true, firstParam := true
        parsePos := c.st.tool.parsePos + tag.length, state := .betweenParams })

/-- The member's key, up to the opening quote of a string. -/
def anthropicToolEmitParamPrefix (name : Bytes) (isString : Bool) (c : AnthropicConn) : AnthropicConn :=
  let fragment := (if c.st.tool.firstParam then [] else utf8 ",") ++ jsonEscape name ++ utf8 ":" ++
    if isString then utf8 "\"" else []
  anthropicSseToolDeltaLive fragment (c.setTool { c.st.tool with firstParam := false })

def anthropicToolStartParam (raw : Bytes) (c : AnthropicConn) : AnthropicConn :=
  match splitTag (raw.drop c.st.tool.parsePos) with
  | none => c
  | some (tag, _) =>
    match dsmlAttr tag (utf8 "name"), dsmlAttr tag (utf8 "string") with
    | some name, some isString =>
      let stringValue := decide (isString = utf8 "true")
      let c := anthropicToolEmitParamPrefix name stringValue c
      c.setTool { c.st.tool with
        paramIsString := stringValue, parsePos := c.st.tool.parsePos + tag.length, state := .paramValue }
    | _, _ => anthropicToolStreamFail c

/-- A part of the value: the text of a JSON string, or the bytes as they are. -/
def anthropicToolEmitValue (text : Bytes) (c : AnthropicConn) : AnthropicConn :=
  anthropicSseToolDeltaLive
    (if c.st.tool.paramIsString then jsonEscapeFragment (shown (dsmlUnescapeText (shown text))) else text) c

def anthropicToolFinishParam (value : Bytes) (c : AnthropicConn) : AnthropicConn :=
  let c := anthropicToolEmitValue value c
  let c := if c.st.tool.paramIsString then anthropicSseToolDeltaLive (utf8 "\"") c else c
  c.setTool { c.st.tool with
    parsePos := c.st.tool.parsePos + value.length + c.st.tool.syn.paramEnd.length, state := .betweenParams }

/-- The reader with its cursor at a suffix of the text. -/
def AnthropicConn.atText (c : AnthropicConn) (raw p : Bytes) : AnthropicConn :=
  c.setTool { c.st.tool with parsePos := raw.length - p.length }

/-- Whether the loop goes on after a tag: not while the tag is incomplete. -/
def anthropicTagRead (before after : AnthropicConn) : Bool :=
  !(after.st.tool.parsePos == before.st.tool.parsePos && after.st.tool.state == before.st.tool.state)

/-- One round of the loop, and whether the loop goes on. -/
def anthropicToolStreamStep (r : AnthropicRequest) (raw : Bytes) (c : AnthropicConn) :
    Except AnthropicConn (AnthropicConn × Bool) :=
  let ts := c.st.tool
  let seg := raw.drop ts.parsePos
  match ts.state with
  | .betweenInvokes =>
    let p := skipWs seg
    if p = [] then .ok (c.atText raw p, false)
    else
      let p := skipMarkers ts.syn p.length p
      let c := c.atText raw p
      if startsWith ts.syn.toolCallsEnd p then
        .ok (c.setTool { c.st.tool with
          parsePos := c.st.tool.parsePos + ts.syn.toolCallsEnd.length, active := false, state := .done }, false)
      else if partialAny p ts.syn.toolCallsEnd ts.syn.invokeStart then .ok (c, false)
      else if startsWith ts.syn.invokeStart p then do
        let c' ← anthropicToolStartInvoke r raw c
        .ok (c', anthropicTagRead c c')
      else .ok (anthropicToolStreamFail c, false)
  | .betweenParams =>
    let p := skipWs seg
    let c := c.atText raw p
    if p = [] then .ok (c, false)
    else if startsWith ts.syn.invokeEnd p then
      let c := if ts.argsOpen then anthropicSseToolDeltaLive (utf8 "\x7d") c else c
      let c := anthropicSseCloseBlockLive r (c.setTool { c.st.tool with argsOpen := false })
      .ok (c.setTool { c.st.tool with
        parsePos := c.st.tool.parsePos + ts.syn.invokeEnd.length, index := c.st.tool.index + 1, state := .betweenInvokes }, true)
    else if partialAny p ts.syn.invokeEnd ts.syn.paramStart then .ok (c, false)
    else if startsWith ts.syn.paramStart p then
      let c' := anthropicToolStartParam raw c
      .ok (c', anthropicTagRead c c')
    else .ok (anthropicToolStreamFail c, false)
  | .paramValue =>
    match strstr ts.syn.paramEnd seg with
    | some (value, _) => .ok (anthropicToolFinishParam value c, true)
    | none =>
      let limit := toolParamValueStreamSafeLen ts.syn.paramEnd ts.paramIsString seg
      let c := anthropicToolEmitValue (seg.take limit) c
      .ok (c.setTool { c.st.tool with parsePos := c.st.tool.parsePos + limit }, false)
  | .done => .ok (c, false)
  | .error => .ok (c, false)

/-- The loop; every round that goes on has taken a byte or stopped the reader. -/
def anthropicToolStreamLoop (r : AnthropicRequest) (raw : Bytes) : Nat → AnthropicConn → Sends
  | 0, c => .ok c
  | fuel + 1, c =>
    if c.st.tool.active && c.st.tool.parsePos < raw.length then do
      let (c, again) ← anthropicToolStreamStep r raw c
      if again then anthropicToolStreamLoop r raw fuel c else .ok c
    else .ok c

def anthropicToolStreamUpdate (r : AnthropicRequest) (raw : Bytes) (c : AnthropicConn) : Sends :=
  anthropicToolStreamLoop r raw (raw.length - c.st.tool.parsePos) c

/-! ## Updates -/

/-- `<think>` at the start of the text is not shown; `none` waits for it. -/
def anthropicThinkPrefix (raw : Bytes) (rawLen : Nat) (final : Bool) (st : AnthropicStream) : Option AnthropicStream :=
  if st.checkedThinkPrefix then some st
  else if rawLen < thinkOpen.length && startsWith (raw.take rawLen) thinkOpen && !final then none
  else some { st with
    emitPos := if thinkOpen.length ≤ rawLen && startsWith thinkOpen raw then thinkOpen.length else st.emitPos
    checkedThinkPrefix := true }

/-- Some bytes from the cursor on, in a block of their own kind. -/
def anthropicShow (type : AnthropicBlockType) (raw : Bytes) (k : Nat) (c : AnthropicConn) : Sends :=
  if k = 0 then .ok c
  else do
    let c ← anthropicSseOpenBlock type c
    let c := anthropicSseDeltaLive type ((raw.drop c.st.emitPos).take k) c
    .ok { c with st := { c.st with
      emitPos := c.st.emitPos + k
      sentThinking := c.st.sentThinking || type = .thinking
      sentText := c.st.sentText || type = .text } }

def anthropicThinking (r : AnthropicRequest) (raw : Bytes) (rawLen : Nat) (final : Bool) (c : AnthropicConn) : Sends :=
  match anthropicThinkPrefix raw rawLen final c.st with
  | none => .ok c
  | some st =>
    let rest := raw.drop st.emitPos
    let n := rawLen - st.emitPos
    match strstr thinkClose (cstr rest) with
    | some (thinking, _) => do
      let c ← anthropicShow .thinking raw thinking.length { c with st := st }
      let c := anthropicSseCloseBlockLive r c
      .ok { c with st := { c.st with emitPos := st.emitPos + thinking.length + thinkClose.length, mode := .text } }
    | none =>
      if final then do
        let c ← anthropicShow .thinking raw n { c with st := st }
        let c := anthropicSseCloseBlockLive r c
        .ok { c with st := { c.st with mode := .suppress } }
      else
        anthropicShow .thinking raw (utf8StreamSafeLen (rest.take (n - (thinkClose.length - 1))) false) { c with st := st }

/-- A marker found by the last update is left to the final emitter. -/
def anthropicText (r : AnthropicRequest) (raw : Bytes) (rawLen : Nat) (final : Bool) (c : AnthropicConn) : Sends := do
  let pos := c.st.emitPos
  let rest := raw.drop pos
  let c ← anthropicShow .text raw (textSafeLimit rest (rawLen - pos) r.hasTools final) c
  match if r.hasTools then findAnyToolStart (cstr rest) else none with
  | some (before, _) =>
    let c := anthropicSseCloseBlockLive r c
    let c := { c with st := { c.st with emitPos := pos + before.length } }
    if final then .ok { c with st := { c.st with mode := .suppress } }
    else
      let tool := anthropicToolStreamInit (raw.take rawLen) c.st.emitPos
      .ok { c with st := { c.st with tool := tool, mode := if tool.active then .tool else .suppress } }
  | none =>
    if final then
      let c := anthropicSseCloseBlockLive r c
      .ok { c with st := { c.st with mode := .suppress } }
    else .ok c

def anthropicTool (r : AnthropicRequest) (raw : Bytes) (rawLen : Nat) (c : AnthropicConn) : Sends := do
  let c ← anthropicToolStreamUpdate r (raw.take rawLen) c
  .ok { c with st := { c.st with mode := if c.st.tool.active then c.st.mode else .suppress } }

def anthropicSseStreamUpdate (r : AnthropicRequest) (raw : Bytes) (rawLen : Nat) (final : Bool) (c : AnthropicConn) : Sends :=
  if !c.st.active then .ok c
  else do
    let c ← if c.st.mode = .thinking then anthropicThinking r raw rawLen final c else .ok c
    let c ← if c.st.mode = .text then anthropicText r raw rawLen final c else .ok c
    if c.st.mode = .tool then anthropicTool r raw rawLen c else .ok c

/-! ## The end of the stream -/

structure AnthropicFinish where
  raw : Bytes
  rawLen : Nat
  calls : List LiveCall
  finish : Bytes
  completionTokens : Int

/-- The id of a call that came without one. -/
def anthropicCallId (r : AnthropicRequest) (tc : LiveCall) (i : Nat) : Bytes :=
  if tc.id = [] then (utf8 "toolu_" ++ r.id ++ utf8 "_" ++ utf8 (toString i)).take 127 else tc.id

/-- One finished call in one piece. -/
def anthropicToolBlock (r : AnthropicRequest) (c : AnthropicConn) (tc : LiveCall × Nat) : AnthropicConn :=
  let c := sseEvent (.contentBlockStart c.st.nextIndex (.toolUse tc.2 (anthropicCallId r tc.1 tc.2) tc.1.name)) c
  let c := sseEvent (.contentBlockDelta c.st.nextIndex (.inputJson (appendJsonObjectOrEmpty tc.1.arguments))) c
  let c := sseEvent (.contentBlockStop c.st.nextIndex) c
  { c with st := { c.st with nextIndex := c.st.nextIndex + 1 } }

/-- How many of the calls the live projection has sent. -/
def alreadyStreamed (st : AnthropicStream) (calls : List LiveCall) : Nat :=
  min (if st.tool.emittedAny then st.tool.index else 0) calls.length

def anthropicSseToolBlocksLive (r : AnthropicRequest) (calls : List LiveCall) (c : AnthropicConn) : AnthropicConn :=
  (calls.zipIdx.drop (alreadyStreamed c.st calls)).foldl (anthropicToolBlock r) c

def anthropicSseStopLive (fin : AnthropicFinish) (c : AnthropicConn) : AnthropicConn :=
  sseEvent .messageStop (sseEvent (.messageDelta fin.finish fin.completionTokens) c)

/-- The events after the last update: a client that was shown thinking only gets a text
    block too. -/
def anthropicEpilogue (r : AnthropicRequest) (fin : AnthropicFinish) (c : AnthropicConn) : Sends := do
  let c ←
    if c.st.sentThinking && !c.st.sentText && fin.calls.isEmpty then do
      let c ← anthropicSseOpenBlock .text c
      .ok (anthropicSseCloseBlockLive r c)
    else .ok c
  .ok (anthropicSseStopLive fin (anthropicSseToolBlocksLive r fin.calls c))

def anthropicSseFinishLive (r : AnthropicRequest) (fin : AnthropicFinish) (c : AnthropicConn) : Sends := do
  let c ← anthropicSseStreamUpdate r fin.raw fin.rawLen true c
  anthropicEpilogue r fin c

/-- Updates with the buffer and the length allowed at each. -/
def anthropicUpdates (r : AnthropicRequest) (updates : List (Bytes × Nat)) (c : AnthropicConn) : Sends :=
  updates.foldlM (fun c u => anthropicSseStreamUpdate r u.1 u.2 false c) c

/-- The events on the connection, whether the writer succeeded or not. -/
def Sends.sent : Sends → List AnthropicEvent
  | .ok c => c.sent
  | .error c => c.sent

/-- Everything sent for a request, from the start of the stream to its end. -/
def anthropicRun (r : AnthropicRequest) (updates : List (Bytes × Nat)) (fin : AnthropicFinish) : List AnthropicEvent :=
  Sends.sent (do
    let c ← anthropicUpdates r updates (anthropicSseStartLive r)
    anthropicSseFinishLive r fin c)

end Ds4.Server
