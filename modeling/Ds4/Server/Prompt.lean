import Ds4.Server.Dsml

/- The chat prompt of ds4_server.c: `render_chat_prompt_text`, the tail of a live
   continuation, and the suffixes a finished turn is remembered under.

   Correspondence (C ↔ Lean):
     `role_is_system`, `role_is_user_like`      ↔ `roleIsSystem`, `roleIsUserLike`
     `chat_history_uses_tool_context`           ↔ `chatHistoryUsesToolContext`
     `append_tools_prompt_text`, `append_tool_result_text`
                                                ↔ `appendToolsPromptText`, `appendToolResultText`
     the loop of `render_chat_prompt_text` and of `render_live_tool_tail`
                                                ↔ `renderMsg`, `renderMsgs`
     `render_chat_prompt_text`, `render_live_tool_tail`
                                                ↔ `renderChatPromptText`, `renderLiveToolTail`
     `build_tool_checkpoint_suffix`, `build_toolless_thinking_visible_text`
                                                ↔ `buildToolCheckpointSuffix`, `buildToollessThinkingVisibleText`
   A NULL text is the empty one. The call ids of a message, the property orders and
   the diagnostics on the log are left out: no text depends on them. -/
namespace Ds4.Server
open Bytes

/-! ## Messages -/

structure ChatMsg where
  role : Bytes
  content : Bytes
  reasoning : Bytes
  calls : List ToolCall
  rawDsml : Bytes
  deriving DecidableEq

inductive ThinkMode
  | none
  | high
  | max
  deriving DecidableEq

def thinkModeEnabled (mode : ThinkMode) : Bool := mode = .high || mode = .max

def roleIsSystem (role : Bytes) : Bool := role = utf8 "system" || role = utf8 "developer"

def roleIsTool (role : Bytes) : Bool := role = utf8 "tool" || role = utf8 "function"

def roleIsUserLike (role : Bytes) : Bool := role = utf8 "user" || roleIsTool role

def chatHistoryUsesToolContext (msgs : List ChatMsg) (toolSchemas : Bytes) : Bool :=
  toolSchemas ≠ [] ||
    msgs.any fun m => (m.role = utf8 "assistant" && m.calls ≠ []) || roleIsTool m.role

/-! ## Texts -/

def beginOfSentence : Bytes := utf8 "<｜begin▁of▁sentence｜>"

def endOfSentence : Bytes := utf8 "<｜end▁of▁sentence｜>"

def userTag : Bytes := utf8 "<｜User｜>"

def assistantTag : Bytes := utf8 "<｜Assistant｜>"

def thinkTag : Bytes := utf8 "<think>"

def thinkEndTag : Bytes := utf8 "</think>"

/-- `ds4_think_max_prefix`. -/
def thinkMaxPrefix : Bytes :=
  utf8 "Reasoning Effort: Absolute maximum with no shortcuts permitted.\n" ++
  utf8 "You MUST be very thorough in your thinking and comprehensively decompose the problem to resolve the root cause, rigorously stress-testing your logic against all potential paths, edge cases, and adversarial scenarios.\n" ++
  utf8 "Explicitly write out your entire deliberation process, documenting every intermediate step, considered alternative, and rejected hypothesis to ensure absolutely no assumption is left unchecked.\n\n"

def toolsPreamble : Bytes :=
  utf8 "## Tools\n\n" ++
  utf8 "You have access to a set of tools to help answer the user question. " ++
  utf8 "You can invoke tools by writing a \"<｜DSML｜tool_calls>\" block like the following:\n\n" ++
  utf8 "<｜DSML｜tool_calls>\n" ++
  utf8 "<｜DSML｜invoke name=\"$TOOL_NAME\">\n" ++
  utf8 "<｜DSML｜parameter name=\"$PARAMETER_NAME\" string=\"true|false\">$PARAMETER_VALUE</｜DSML｜parameter>\n" ++
  utf8 "...\n" ++
  utf8 "</｜DSML｜invoke>\n" ++
  utf8 "<｜DSML｜invoke name=\"$TOOL_NAME2\">\n" ++
  utf8 "...\n" ++
  utf8 "</｜DSML｜invoke>\n" ++
  utf8 "</｜DSML｜tool_calls>\n\n" ++
  utf8 "String parameters should be specified as raw text and set `string=\"true\"`. " ++
  utf8 "Preserve characters such as `>`, `&`, and `&&` exactly; never replace normal string characters with XML or HTML entity escapes. " ++
  utf8 "Only if a string value itself contains the exact closing parameter tag `</｜DSML｜parameter>`, write that tag as `&lt;/｜DSML｜parameter>` inside the value. " ++
  utf8 "For all other types (numbers, booleans, arrays, objects), pass the value in JSON format and set `string=\"false\"`.\n\n" ++
  utf8 "When a shell command starts a long-lived server, detach it and redirect stdin, stdout, and stderr away from the tool process before returning. " ++
  utf8 "On POSIX use a background process with redirected streams; with PowerShell use Start-Process with explicit redirected output/error files. " ++
  utf8 "In PowerShell NEVER combine Start-Process -NoNewWindow with a persistent process unless -RedirectStandardInput, -RedirectStandardOutput, and -RedirectStandardError are all present; inherited handles keep the agent tool open forever. " ++
  utf8 "Do not use Get-Content -Wait when validating a persistent server. " ++
  utf8 "Never leave a persistent child inheriting the tool's output pipe, because the agent will continue waiting even after this API request has completed.\n\n" ++
  utf8 "If thinking_mode is enabled (triggered by <think>), you MUST output your complete reasoning inside <think>...</think> BEFORE any tool calls or final response.\n\n" ++
  utf8 "Otherwise, output directly after </think> with tool calls or final response.\n\n" ++
  utf8 "### Available Tool Schemas\n\n"

def toolsEpilogue : Bytes :=
  utf8 "\n\nYou MUST strictly follow the above defined tool name and parameter schemas to invoke tool calls. " ++
  utf8 "Use the exact parameter names from the schemas."

def appendToolsPromptText (toolSchemas : Bytes) : Bytes :=
  if toolSchemas = [] then [] else toolsPreamble ++ toolSchemas ++ toolsEpilogue

/-- Only the wrapper's own end is protected. -/
def appendToolResultText (s : Bytes) : Bytes := escapeTag (utf8 "</tool_result>") (utf8 "&lt;") s

/-! ## Rendering -/

/-- What has been opened: a turn of the user to be answered, a group of tool results. -/
structure Pending where
  assistant : Bool
  toolResult : Bool
  deriving DecidableEq

def Pending.start : Pending := ⟨false, false⟩

def Pending.after (p : Pending) (m : ChatMsg) : Pending :=
  if roleIsSystem m.role then p
  else if m.role = utf8 "user" then ⟨true, false⟩
  else if roleIsTool m.role then ⟨true, true⟩
  else if m.role = utf8 "assistant" then ⟨false, false⟩
  else p

/-- What stands before the answer: the reasoning is replayed or dropped. -/
def thinkSection (think replay : Bool) (reasoning : Bytes) : Bytes :=
  if think && replay then thinkTag ++ reasoning ++ thinkEndTag else thinkEndTag

/-- One message of the loop. -/
def renderMsg (think replay : Bool) (p : Pending) (m : ChatMsg) : Bytes :=
  if roleIsSystem m.role then []
  else if m.role = utf8 "user" then userTag ++ m.content
  else if roleIsTool m.role then
    (if p.toolResult then [] else userTag) ++ utf8 "<tool_result>" ++ appendToolResultText m.content ++
      utf8 "</tool_result>"
  else if m.role = utf8 "assistant" then
    (if p.assistant then assistantTag ++ thinkSection think replay m.reasoning else []) ++ m.content ++
      appendDsmlToolCallsText m.rawDsml m.calls ++ endOfSentence
  else []

/-- The loop from message `i` on; `replay i` says whether its reasoning is rendered. -/
def renderMsgs (think : Bool) (replay : Nat → Bool) : Nat → Pending → List ChatMsg → Bytes
  | _, _, [] => []
  | i, p, m :: ms => renderMsg think (replay i) p m ++ renderMsgs think replay (i + 1) (p.after m) ms

/-- The prefix of the answer, when one is awaited. -/
def assistantPrefix (think : Bool) (p : Pending) : Bytes :=
  if p.assistant then assistantTag ++ (if think then thinkTag else thinkEndTag) else []

/-- The tool schemas, then the system messages, a blank line between them. -/
def systemText (toolSchemas : Bytes) (msgs : List ChatMsg) : Bytes :=
  msgs.foldl (fun system m => if roleIsSystem m.role then
      system ++ (if system ≠ [] then utf8 "\n\n" else []) ++ m.content
    else system) (appendToolsPromptText toolSchemas)

/-- The loop over the indexes: the last message of a user or a tool, or what it was. -/
def lastUserIdx : Nat → Int → List ChatMsg → Int
  | _, last, [] => last
  | i, last, m :: ms => lastUserIdx (i + 1) (if roleIsUserLike m.role then i else last) ms

/-- Whether the reasoning of message `i` is rendered. -/
def replaysReasoning (msgs : List ChatMsg) (toolSchemas : Bytes) (i : Nat) : Bool :=
  chatHistoryUsesToolContext msgs toolSchemas || decide ((i : Int) > lastUserIdx 0 (-1) msgs)

def renderChatPromptText (msgs : List ChatMsg) (toolSchemas : Bytes) (mode : ThinkMode) : Bytes :=
  let think := thinkModeEnabled mode
  beginOfSentence ++ (if mode = .max then thinkMaxPrefix else []) ++ systemText toolSchemas msgs ++
    renderMsgs think (replaysReasoning msgs toolSchemas) 0 .start msgs ++
    assistantPrefix think (msgs.foldl Pending.after .start)

/-- From message `start` on, after the end of the live turn. -/
def renderLiveToolTail (msgs : List ChatMsg) (start : Nat) (mode : ThinkMode) : Bytes :=
  let think := thinkModeEnabled mode
  endOfSentence ++ renderMsgs think (fun _ => true) start .start (msgs.drop start) ++
    assistantPrefix think ((msgs.drop start).foldl Pending.after .start)

/-! ## What a finished turn is remembered under -/

def buildToolCheckpointSuffix (mode : ThinkMode) (content reasoning : Bytes) (calls : List ToolCall)
    (rawDsml : Bytes) : Bytes :=
  (if thinkModeEnabled mode then reasoning ++ thinkEndTag else []) ++ content ++
    appendDsmlToolCallsText rawDsml calls ++ endOfSentence

/-- The prompt with its open thinking closed; `none` when it does not end in `<think>`. -/
def buildToollessThinkingVisibleText (promptText : Bytes) (mode : ThinkMode) (content : Bytes) : Option Bytes :=
  if !thinkModeEnabled mode then none
  else if promptText.length < thinkTag.length ∨
      promptText.drop (promptText.length - thinkTag.length) ≠ thinkTag then none
  else some (promptText.take (promptText.length - thinkTag.length) ++ thinkEndTag ++ content ++ endOfSentence)

end Ds4.Server
