import Mathlib.Data.List.DropRight
import Ds4.Server.JsonArgs

/- DSML tool calls of ds4_server.c: the renderer `append_dsml_tool_calls_text`
   and the parser of a finished generation, `parse_generated_message_ex`.

   Correspondence (C ↔ Lean):
     `append_dsml_attr_escaped`, `append_dsml_parameter_text`,
     `append_dsml_json_literal`         ↔ `appendDsmlAttrEscaped`, `appendDsmlParameterText`, …
     `append_dsml_arg`, `append_dsml_arguments_from_json`
                                        ↔ `appendDsmlArg`, `appendDsmlArgumentsFromJson`
     `dsml_unescape_text`, `dsml_attr`  ↔ `dsmlUnescapeText`, `dsmlAttr`
     `dsml_parse_leaf_param_json`, `dsml_parse_nested_params_object`
                                        ↔ `dsmlParseLeafParamJson`, `dsmlParseNestedParamsObject`
     the two loops of `parse_generated_message_ex` ↔ `parseInvokes`, `parseParams`
   A writer returns what it appends. A parser takes the text from its cursor on
   and returns the text from its new cursor on; `none` is its `return false`, on
   which the caller drops the calls pushed so far. The property order of
   `append_dsml_arguments_from_json` is left out: its one caller passes NULL. -/
namespace Ds4.Server
open Bytes

structure ToolCall where
  name : Bytes
  arguments : Bytes
  deriving DecidableEq

/-! ## Syntax -/

/-- The six tags of one spelling of a tool block. -/
structure DsmlSyntax where
  toolCallsStart : Bytes
  toolCallsEnd : Bytes
  invokeStart : Bytes
  invokeEnd : Bytes
  paramStart : Bytes
  paramEnd : Bytes
  deriving DecidableEq

/-- DSML, DSML with the first vertical bar omitted, plain XML. -/
inductive DsmlStyle
  | dsml
  | short
  | plain
  deriving DecidableEq

/-- What stands between the angle bracket and the word of a tag. -/
def DsmlStyle.mark : DsmlStyle → String
  | .dsml => "｜DSML｜"
  | .short => "DSML｜"
  | .plain => ""

def dsmlSyntax (style : DsmlStyle) : DsmlSyntax where
  toolCallsStart := utf8 ("<" ++ style.mark ++ "tool_calls>")
  toolCallsEnd := utf8 ("</" ++ style.mark ++ "tool_calls>")
  invokeStart := utf8 ("<" ++ style.mark ++ "invoke")
  invokeEnd := utf8 ("</" ++ style.mark ++ "invoke>")
  paramStart := utf8 ("<" ++ style.mark ++ "parameter")
  paramEnd := utf8 ("</" ++ style.mark ++ "parameter>")

/-! ## Renderer -/

def dsmlAttrByte (c : UInt8) : Bytes :=
  if c = 38 then utf8 "&amp;"
  else if c = 60 then utf8 "&lt;"
  else if c = 62 then utf8 "&gt;"
  else if c = 34 then utf8 "&quot;"
  else [c]

def appendDsmlAttrEscaped (s : Bytes) : Bytes := s.flatMap dsmlAttrByte

def paramEndTag : Bytes := utf8 "</｜DSML｜parameter>"

def appendDsmlParameterText (s : Bytes) : Bytes := escapeTag paramEndTag (utf8 "&lt;") s

def appendDsmlJsonLiteral (s : Bytes) : Bytes := escapeTag paramEndTag jsonLess s

def appendDsmlArg (arg : JsonArg) : Bytes :=
  utf8 "<｜DSML｜parameter name=\"" ++ appendDsmlAttrEscaped arg.key ++ utf8 "\" string=\"" ++
    utf8 (if arg.isString then "true" else "false") ++ utf8 "\">" ++
    (if arg.isString then appendDsmlParameterText arg.value else appendDsmlJsonLiteral arg.value) ++
    utf8 "</｜DSML｜parameter>\n"

def appendDsmlArgumentsFromJson (json : Bytes) : Option Bytes :=
  (jsonArgsParse json).map fun args => args.flatMap appendDsmlArg

/-- Arguments that are no JSON object go out as one text parameter. -/
def appendDsmlToolCall (tc : ToolCall) : Bytes :=
  utf8 "<｜DSML｜invoke name=\"" ++ appendDsmlAttrEscaped tc.name ++ utf8 "\">\n" ++
    (appendDsmlArgumentsFromJson tc.arguments).getD
      (utf8 "<｜DSML｜parameter name=\"arguments\" string=\"true\">" ++
        appendDsmlParameterText tc.arguments ++ utf8 "</｜DSML｜parameter>\n") ++
    utf8 "</｜DSML｜invoke>\n"

/-- `rawDsml` is the remembered block, empty when there is none. -/
def appendDsmlToolCallsText (rawDsml : Bytes) (calls : List ToolCall) : Bytes :=
  if calls = [] then []
  else if rawDsml ≠ [] then rawDsml
  else utf8 "\n\n<｜DSML｜tool_calls>\n" ++ calls.flatMap appendDsmlToolCall ++
    utf8 "</｜DSML｜tool_calls>"

/-! ## Attributes and entities -/

def dsmlEntities : List (Bytes × UInt8) :=
  [(utf8 "&amp;", 38), (utf8 "&lt;", 60), (utf8 "&gt;", 62), (utf8 "&quot;", 34), (utf8 "&apos;", 39)]

def entityAt (s : Bytes) : Option (Bytes × UInt8) := dsmlEntities.find? fun e => startsWith e.1 s

/-- The loop, with the number of bytes of an entity still to step over. -/
def dsmlUnescapeFrom : Nat → Bytes → Bytes
  | _, [] => []
  | n + 1, _ :: s => dsmlUnescapeFrom n s
  | 0, c :: s =>
    match entityAt (c :: s) with
    | some (ent, b) => b :: dsmlUnescapeFrom (ent.length - 1) s
    | none => c :: dsmlUnescapeFrom 0 s

def dsmlUnescapeText (s : Bytes) : Bytes := dsmlUnescapeFrom 0 s

theorem entity_shape {e : Bytes × UInt8} (he : e ∈ dsmlEntities) :
    ∃ l, e.1 = 38 :: l ∧ (38 : UInt8) ∉ l := by
  have h : ∀ e ∈ dsmlEntities, e.1 = 38 :: e.1.tail ∧ (38 : UInt8) ∉ e.1.tail := by decide
  exact ⟨e.1.tail, h e he⟩

theorem entityAt_plain {c : UInt8} (hc : c ≠ 38) (s : Bytes) : entityAt (c :: s) = none := by
  rw [entityAt, List.find?_eq_none]
  intro e he
  obtain ⟨l, hl, -⟩ := entity_shape he
  simp [hl, Ne.symm hc]

theorem dsmlUnescape_plain {c : UInt8} (hc : c ≠ 38) (s : Bytes) :
    dsmlUnescapeText (c :: s) = c :: dsmlUnescapeText s := by
  rw [dsmlUnescapeText, dsmlUnescapeFrom, entityAt_plain hc]
  rfl

/-- The attribute's value: the first `name="` in the tag, up to the next quote. -/
def dsmlAttr (tag name : Bytes) : Option Bytes := do
  let (_, p) ← strstr (name ++ utf8 "=\"") tag
  let (raw, _) ← strchr 34 (p.drop (name ++ utf8 "=\"").length)
  some (dsmlUnescapeText raw)

/-- A tag up to its `>`, and the text after it. -/
def splitTag (s : Bytes) : Option (Bytes × Bytes) :=
  (strchr 62 s).map fun r => (r.1 ++ [62], r.2.drop 1)

/-! ## Parser -/

/-- The text value of a parameter, by its `string` attribute. -/
def dsmlParamValue (type raw : Bytes) : Bytes :=
  if type = utf8 "true" then dsmlUnescapeText raw else raw

/-- The new member list and the text after the closing tag. -/
def dsmlParseLeafParamJson (syn : DsmlSyntax) (out p : Bytes) : Option (Bytes × Bytes) :=
  if !startsWith syn.paramStart p then none
  else do
    let (tag, r) ← splitTag p
    let name ← dsmlAttr tag (utf8 "name")
    let type := (dsmlAttr tag (utf8 "string")).getD (utf8 "true")
    let (raw, e) ← strstr syn.paramEnd r
    some (toolCallJsonArgsAdd out name (dsmlParamValue type raw) type, e.drop syn.paramEnd.length)

/-- The loop over the leaves; every round takes a byte or more. -/
def nestedMembers (syn : DsmlSyntax) : Nat → Bytes → Bytes → Option (Bytes × Bytes)
  | 0, _, _ => none
  | fuel + 1, members, p =>
    let p := skipWs p
    if !startsWith syn.paramStart p then some (members, p)
    else do
      let (members, r) ← dsmlParseLeafParamJson syn members p
      nestedMembers syn fuel members r

/-- The object of the nested parameters; there has to be one. -/
def dsmlParseNestedParamsObject (syn : DsmlSyntax) (p : Bytes) : Option (Bytes × Bytes) :=
  if !startsWith syn.paramStart (skipWs p) then none
  else (nestedMembers syn (p.length + 1) [] p).map fun (members, r) => (123 :: members ++ [125], r)

/-- The loop over the parameters of one call, up to its closing tag. -/
def parseParams (syn : DsmlSyntax) : Nat → Bytes → Bytes → Option (Bytes × Bytes)
  | 0, _, _ => none
  | fuel + 1, args, p =>
    let p := skipWs p
    if startsWith syn.invokeEnd p then some (args, p.drop syn.invokeEnd.length)
    else if !startsWith syn.paramStart p then none
    else do
      let (tag, value) ← splitTag p
      let name ← dsmlAttr tag (utf8 "name")
      let isString := dsmlAttr tag (utf8 "string")
      if isString.isNone && startsWith syn.paramStart (skipWs value) then do
        let (nested, r) ← dsmlParseNestedParamsObject syn value
        let r := skipWs r
        parseParams syn fuel (toolCallJsonArgsAdd args name nested (utf8 "false"))
          (if startsWith syn.paramEnd r then r.drop syn.paramEnd.length else r)
      else do
        let (raw, e) ← strstr syn.paramEnd value
        let type := isString.getD (utf8 "true")
        parseParams syn fuel (toolCallJsonArgsAdd args name (dsmlParamValue type raw) type)
          (e.drop syn.paramEnd.length)

/-- Opening markers echoed again, and the blanks after each. -/
def skipMarkers (syn : DsmlSyntax) : Nat → Bytes → Bytes
  | 0, p => p
  | fuel + 1, p =>
    if startsWith syn.toolCallsStart p then
      skipMarkers syn fuel (skipWs (p.drop syn.toolCallsStart.length))
    else p

/-- What stands between two calls: blanks and echoed markers. -/
def skipOpening (syn : DsmlSyntax) (p : Bytes) : Bytes := skipMarkers syn (skipWs p).length (skipWs p)

/-- The loop over the calls, up to the closing tag of the block. -/
def parseInvokes (syn : DsmlSyntax) : Nat → Bytes → Option (List ToolCall × Bytes)
  | 0, _ => none
  | fuel + 1, p =>
    let p := skipOpening syn p
    if startsWith syn.toolCallsEnd p then some ([], p.drop syn.toolCallsEnd.length)
    else if !startsWith syn.invokeStart p then none
    else do
      let (tag, r) ← splitTag p
      let name ← dsmlAttr tag (utf8 "name")
      let (args, r) ← parseParams syn (r.length + 1) [] r
      let (calls, r) ← parseInvokes syn fuel r
      some ({ name := name, arguments := 123 :: args ++ [125] } :: calls, r)

/-- The text from the last occurrence on. -/
def findLastSubstr (needle : Bytes) : Bytes → Option Bytes
  | [] => none
  | c :: s =>
    match findLastSubstr needle s with
    | some r => some r
    | none => if startsWith needle (c :: s) then some (c :: s) else none

/-- Content, and the reasoning when it was closed. -/
def splitReasoningContent (s : Bytes) : Bytes × Option Bytes :=
  let body := if startsWith (utf8 "<think>") s then s.drop 7 else s
  match strstr (utf8 "</think>") body with
  | some (reasoning, e) => (e.drop 8, some reasoning)
  | none => (s, none)

def trimToolSeparatorWs (s : Bytes) : Bytes := s.rdropWhile isSpace

/-- The markers the parser looks for, in this order. -/
def toolStartCandidates : List (DsmlStyle × Bytes) :=
  [.dsml, .short, .plain].flatMap fun style =>
    [(style, utf8 "\n\n" ++ (dsmlSyntax style).toolCallsStart), (style, (dsmlSyntax style).toolCallsStart)]

/-- The style, the text before the marker and the text from it on. -/
def findToolStart (s : Bytes) : Option (DsmlStyle × Bytes × Bytes) :=
  toolStartCandidates.findSome? fun c => (strstr c.2 s).map fun r => (c.1, r)

structure ParsedMessage where
  content : Bytes
  reasoning : Option Bytes
  calls : List ToolCall
  rawDsml : Option Bytes

def parseGeneratedMessageEx (text : Bytes) (requireThinkingClosed : Bool) : Option ParsedMessage :=
  let plain : ParsedMessage :=
    let (content, reasoning) := splitReasoningContent text
    { content := content, reasoning := reasoning, calls := [], rawDsml := none }
  let search :=
    if requireThinkingClosed then (findLastSubstr (utf8 "</think>") text).map fun r => r.drop 8
    else some text
  match search with
  | none => some plain
  | some toolSearch =>
    match findToolStart toolSearch with
    | none => some plain
    | some (style, _, start) => do
      let syn := dsmlSyntax style
      let (_, p) ← strstr syn.toolCallsStart start
      let (calls, r) ← parseInvokes syn (p.length + 1) (p.drop syn.toolCallsStart.length)
      let head := trimToolSeparatorWs (text.take (text.length - start.length))
      let (content, reasoning) := splitReasoningContent head
      some {
        content := content, reasoning := reasoning, calls := calls
        rawDsml := some (start.take (start.length - r.length)) }

end Ds4.Server
