import Ds4.Marked
import Ds4.Tokenizer.PlainText
import Ds4.Server.Prompt

/- The transcript of the agent: which tokens each part of a conversation becomes.

   Correspondence (C ↔ Lean):
     `ds4_chat_begin`, `ds4_chat_append_max_effort_prefix` ↔ `chatBegin`, `chatAppendMaxEffortPrefix`
     `bpe_tokenize_tool_result_text`      ↔ `toolResultLoop`, `bpeTokenizeToolResultText`
     `ds4_chat_append_message`            ↔ `chatAppendMessage`
     `ds4_chat_append_assistant_prefix`   ↔ `chatAppendAssistantPrefix`
     `agent_append_system_prompt`         ↔ `agentAppendSystemPrompt`
     `ds4_kvstore_render_tokens_text`     ↔ `renderTokensText`
   A transcript is what `agent_worker_build_system_tokens` starts and `worker_run_turn`
   appends to (`Entry`), in any order; the text of the built-in prompt is any text.

   What is proved: the control tokens of a transcript are those its entries push, with the
   entries' own bytes between them (`shape_transcript`), and a tool message has its closing
   sentinel at the end and nowhere else (`toolMessage_sentinel`). -/
namespace Ds4.Agent
open Bytes Server Marked

/-! ## Chat -/

def chatBegin (v : Vocab) : List Int := [v.bosId]

def chatAppendMaxEffortPrefix (v : Vocab) : List Int := bpeTokenizeText v thinkMaxPrefix

def toolResultEnd : Bytes := utf8 "</tool_result>"

/-- The loop over the text from the cursor on; `span` is what stands before it. -/
def toolResultLoop (v : Vocab) : Bytes → Bytes → List Int
  | span, [] => tokenizeSpan v span
  | span, c :: p =>
    if startsWith toolResultEnd (c :: p) then
      tokenizeSpan v span ++ (bpeTokenizeText v (utf8 "&lt;") ++ toolResultLoop v [] p)
    else toolResultLoop v (span ++ [c]) p

def bpeTokenizeToolResultText (v : Vocab) (content : Bytes) : List Int := toolResultLoop v [] (cstr content)

def isToolRole (role : Bytes) : Prop := role = utf8 "tool" ∨ role = utf8 "function"

instance (role : Bytes) : Decidable (isToolRole role) := by unfold isToolRole; infer_instance

/-- A message that thinks already, or does not think, by its first bytes. -/
def opensThinking (content : Bytes) : Bool := startsWith (utf8 "<think>") content || startsWith (utf8 "</think>") content

/-- `none` is a NULL string. -/
def chatAppendMessage (v : Vocab) (role content : Option Bytes) : List Int :=
  let role := cstr (role.getD (utf8 "user"))
  let content := cstr (content.getD [])
  if role = utf8 "system" ∨ role = utf8 "developer" then bpeTokenizeText v content
  else if role = utf8 "assistant" then
    v.assistantId :: (if opensThinking content then [] else [v.thinkEndId]) ++ bpeTokenizeText v content
  else if isToolRole role then
    v.userId :: bpeTokenizeText v (utf8 "<tool_result>") ++ bpeTokenizeToolResultText v content ++
      bpeTokenizeText v toolResultEnd
  else v.userId :: bpeTokenizeText v content

def chatAppendAssistantPrefix (v : Vocab) (mode : ThinkMode) : List Int :=
  [v.assistantId, if thinkModeEnabled mode then v.thinkStartId else v.thinkEndId]

/-- `tools` is the text of `agent_build_tools_prompt`. -/
def agentAppendSystemPrompt (v : Vocab) (tools : Bytes) (extra : Option Bytes) : List Int :=
  let extra := cstr (extra.getD [])
  tokenizeRenderedChatVocab v tools ++
    if extra = [] then [] else chatAppendMessage v (some (utf8 "system")) (some (utf8 "\n\n" ++ extra))

def renderTokensText (v : Vocab) (ts : List Int) : Bytes := ts.flatMap (ds4TokenText v)

/-! ## Transcripts -/

/-- What is appended to a transcript. `rendered` is the reminder of the built-in prompt, `plain` its
    extra part or a text that is forced on the model, `token` a sampled token or the end of a turn. -/
inductive Entry
  | maxEffortPrefix
  | systemPrompt (tools : Bytes) (extra : Option Bytes)
  | rendered (text : Bytes)
  | plain (text : Bytes)
  | message (role content : Option Bytes)
  | assistantPrefix (mode : ThinkMode)
  | token (t : Int)

def Entry.tokens (v : Vocab) : Entry → List Int
  | .maxEffortPrefix => chatAppendMaxEffortPrefix v
  | .systemPrompt tools extra => agentAppendSystemPrompt v tools extra
  | .rendered text => tokenizeRenderedChatVocab v text
  | .plain text => bpeTokenizeText v text
  | .message role content => chatAppendMessage v role content
  | .assistantPrefix mode => chatAppendAssistantPrefix v mode
  | .token t => [t]

def transcriptTokens (v : Vocab) (t : List Entry) : List Int := chatBegin v ++ t.flatMap (Entry.tokens v)

/-! ## Control tokens and the text between them -/

/-- Control tokens among the bytes of ordinary text. -/
abbrev Items := List (Int ⊕ UInt8)

def plainItems (text : Bytes) : Items := text.map .inr

/-- The tokens as control tokens and, for the others, their text. -/
def shape (v : Vocab) (ts : List Int) : Items :=
  ts.flatMap fun t => if isControl v t then [.inl t] else plainItems (ds4TokenText v t)

/-- The marks of a trusted text are the literals in it. -/
def renderedItems (v : Vocab) (text : Bytes) : Items := scan (specialTokenAt v) (cstr text).length (cstr text)

def messageItems (v : Vocab) (role content : Option Bytes) : Items :=
  let role := cstr (role.getD (utf8 "user"))
  let content := cstr (content.getD [])
  if role = utf8 "system" ∨ role = utf8 "developer" then plainItems content
  else if role = utf8 "assistant" then
    .inl v.assistantId :: (if opensThinking content then [] else [.inl v.thinkEndId]) ++ plainItems content
  else if isToolRole role then
    .inl v.userId ::
      plainItems (utf8 "<tool_result>" ++ escapeTag toolResultEnd (utf8 "&lt;") content ++ toolResultEnd)
  else .inl v.userId :: plainItems content

/-- What an entry adds: the control tokens it pushes, and its own text. -/
def Entry.items (v : Vocab) : Entry → Items
  | .maxEffortPrefix => plainItems (cstr thinkMaxPrefix)
  | .systemPrompt tools extra =>
    let extra := cstr (extra.getD [])
    renderedItems v tools ++ if extra = [] then [] else plainItems (utf8 "\n\n" ++ extra)
  | .rendered text => renderedItems v text
  | .plain text => plainItems (cstr text)
  | .message role content => messageItems v role content
  | .assistantPrefix mode => [.inl v.assistantId, .inl (if thinkModeEnabled mode then v.thinkStartId else v.thinkEndId)]
  | .token t => if isControl v t then [.inl t] else plainItems (ds4TokenText v t)

def transcriptItems (v : Vocab) (t : List Entry) : Items := .inl v.bosId :: t.flatMap (Entry.items v)

section
variable {tokens merges : List Bytes} {v : Vocab}

@[simp] theorem shape_nil : shape v [] = [] := rfl

@[simp] theorem shape_append (a b : List Int) : shape v (a ++ b) = shape v a ++ shape v b := List.flatMap_append

theorem shape_cons (t : Int) (ts : List Int) : shape v (t :: ts) = shape v [t] ++ shape v ts := by
  rw [← shape_append]
  rfl

@[simp] theorem plainItems_append (a b : Bytes) : plainItems (a ++ b) = plainItems a ++ plainItems b :=
  List.map_append

theorem control_mem {sp : Bytes × Int} (h : sp ∈ specials v) : isControl v sp.2 = true := isControl_iff.mpr ⟨sp, h, rfl⟩

theorem shape_control {t : Int} (h : isControl v t = true) : shape v [t] = [.inl t] := by
  rw [shape, List.flatMap_singleton, if_pos h]

theorem controls : isControl v v.bosId = true ∧ isControl v v.userId = true ∧ isControl v v.assistantId = true ∧
    isControl v v.thinkStartId = true ∧ isControl v v.thinkEndId = true := by
  refine ⟨@control_mem v (utf8 "<｜begin▁of▁sentence｜>", _) ?_, @control_mem v (utf8 "<｜User｜>", _) ?_,
    @control_mem v (utf8 "<｜Assistant｜>", _) ?_, @control_mem v (utf8 "<think>", _) ?_,
    @control_mem v (utf8 "</think>", _) ?_⟩
  all_goals simp [specials]

/-- Tokens of ordinary text are their text. -/
theorem shape_plain {ts : List Int} (h : ∀ t ∈ ts, isControl v t = false) : shape v ts = plainItems (renderTokensText v ts) := by
  induction ts with
  | nil => rfl
  | cons t ts ih =>
    have hrest := ih fun x hx => h x (List.mem_cons_of_mem _ hx)
    have hhead : shape v [t] = plainItems (ds4TokenText v t) := by
      rw [shape, List.flatMap_singleton, h t List.mem_cons_self, if_neg (by decide)]
    rw [shape_cons, hhead, hrest, renderTokensText, renderTokensText, List.flatMap_cons, plainItems_append]

theorem shape_bpe (hl : Loaded tokens merges v) (hc : Complete tokens merges) (text : Bytes) :
    shape v (bpeTokenizeText v text) = plainItems (cstr text) := by
  have hcut : bpeTokenizeText v text = bpeTokenizeText v (cstr text) := by
    rw [bpeTokenizeText, bpeTokenizeText, cstr_cstr]
  rw [shape_plain fun t ht => (hl.bpeTokenizeText_plain hc text t ht).1, hcut, renderTokensText,
    hl.bpeTokenizeText_text hc (cstr_no_nul text)]

theorem shape_span (hl : Loaded tokens merges v) (hc : Complete tokens merges) {s : Bytes} (hs : (0 : UInt8) ∉ s) :
    shape v (tokenizeSpan v s) = plainItems s := by
  unfold tokenizeSpan
  split
  · next h => rw [h]; rfl
  · rw [shape_bpe hl hc, cstr_of_no_nul hs]

theorem shape_scan (hl : Loaded tokens merges v) (hc : Complete tokens merges) : ∀ (fuel : Nat) (s p : Bytes),
    p.length ≤ fuel → (0 : UInt8) ∉ s → (0 : UInt8) ∉ p →
    shape v (scanRendered v fuel s p) = plainItems s ++ scan (specialTokenAt v) fuel p
  | 0, s, [], _, hs, _ => by simpa [scanRendered, scan] using shape_span hl hc hs
  | _ + 1, s, [], _, hs, _ => by simpa [scanRendered, scan] using shape_span hl hc hs
  | 0, _, _ :: _, h, _, _ => by simp at h
  | fuel + 1, s, c :: p, h, hs, hp => by
    rw [List.length_cons] at h
    rw [scanRendered, scan]
    cases hsp : specialTokenAt v (c :: p) with
    | none =>
      have hs' : (0 : UInt8) ∉ s ++ [c] := by
        simp only [List.mem_append, List.mem_singleton, not_or]
        exact ⟨hs, fun e => hp (e ▸ List.mem_cons_self)⟩
      dsimp only
      rw [shape_scan hl hc fuel _ p (by omega) hs' (fun e => hp (List.mem_cons_of_mem _ e)), plainItems_append,
        List.append_assoc]
      rfl
    | some sp =>
      have hmem := List.mem_of_find?_eq_some hsp
      have hdrop : ((c :: p).drop sp.1.length).length ≤ fuel := by
        have hpos := (specialTexts_spec sp.1 (mem_specialTexts hmem)).1
        rw [List.length_drop, List.length_cons]
        omega
      dsimp only
      rw [shape_append, shape_cons, shape_span hl hc hs, shape_control (control_mem hmem),
        shape_scan hl hc fuel [] _ hdrop (by simp) (fun e => hp (List.mem_of_mem_drop e))]
      rfl

theorem shape_rendered (hl : Loaded tokens merges v) (hc : Complete tokens merges) (text : Bytes) :
    shape v (tokenizeRenderedChatVocab v text) = renderedItems v text :=
  shape_scan hl hc _ [] _ (Nat.le_refl _) (by simp) (cstr_no_nul text)

theorem shape_toolResult (hl : Loaded tokens merges v) (hc : Complete tokens merges) : ∀ p s : Bytes,
    (0 : UInt8) ∉ s → (0 : UInt8) ∉ p →
    shape v (toolResultLoop v s p) = plainItems (s ++ escapeTag toolResultEnd (utf8 "&lt;") p)
  | [], s, hs, _ => by rw [toolResultLoop, shape_span hl hc hs, escapeTag, List.append_nil]
  | c :: p, s, hs, hp => by
    have hp' : (0 : UInt8) ∉ p := fun e => hp (List.mem_cons_of_mem _ e)
    have hesc : cstr (utf8 "&lt;") = utf8 "&lt;" := by decide
    rw [toolResultLoop, escapeTag]
    split
    · rw [shape_append, shape_append, shape_span hl hc hs, shape_bpe hl hc, hesc,
        shape_toolResult hl hc p [] (by simp) hp', ← plainItems_append, ← plainItems_append, List.nil_append]
    · have hs' : (0 : UInt8) ∉ s ++ [c] := by
        simp only [List.mem_append, List.mem_singleton, not_or]
        exact ⟨hs, fun e => hp (e ▸ List.mem_cons_self)⟩
      rw [shape_toolResult hl hc p _ hs' hp', List.append_assoc]

theorem shape_message (hl : Loaded tokens merges v) (hc : Complete tokens merges) (role content : Option Bytes) :
    shape v (chatAppendMessage v role content) = messageItems v role content := by
  obtain ⟨-, huser, hassistant, -, hend⟩ := controls (v := v)
  have hcut : ∀ s, cstr (cstr s) = cstr s := cstr_cstr
  unfold chatAppendMessage messageItems
  dsimp only
  split
  · rw [shape_bpe hl hc, hcut]
  split
  · rw [shape_append, shape_cons, shape_control hassistant, shape_bpe hl hc, hcut]
    split
    · rfl
    · rw [shape_control hend]
      rfl
  split
  · have hopen : cstr (utf8 "<tool_result>") = utf8 "<tool_result>" := by decide
    have hclose : cstr toolResultEnd = toolResultEnd := by decide
    rw [shape_append, shape_append, shape_cons, shape_control huser, shape_bpe hl hc, shape_bpe hl hc, hopen, hclose,
      bpeTokenizeToolResultText, hcut, shape_toolResult hl hc _ [] (by simp) (cstr_no_nul _), List.nil_append,
      List.append_assoc, List.append_assoc, ← plainItems_append, ← plainItems_append]
    rfl
  · rw [shape_cons, shape_control huser, shape_bpe hl hc, hcut]
    rfl

theorem shape_systemPrompt (hl : Loaded tokens merges v) (hc : Complete tokens merges) (tools : Bytes)
    (extra : Option Bytes) : shape v (agentAppendSystemPrompt v tools extra) = (Entry.systemPrompt tools extra).items v := by
  unfold agentAppendSystemPrompt Entry.items
  dsimp only
  rw [shape_append, shape_rendered hl hc]
  split
  · rfl
  · have hrole : cstr (utf8 "system") = utf8 "system" := by decide
    have hlead : (0 : UInt8) ∉ utf8 "\n\n" := by decide
    rw [shape_message hl hc, messageItems, Option.getD_some, Option.getD_some, hrole, if_pos (.inl rfl),
      cstr_append hlead, cstr_cstr]

theorem shape_entry (hl : Loaded tokens merges v) (hc : Complete tokens merges) : ∀ entry : Entry,
    shape v (entry.tokens v) = entry.items v
  | .maxEffortPrefix => shape_bpe hl hc _
  | .systemPrompt tools extra => shape_systemPrompt hl hc tools extra
  | .rendered text => shape_rendered hl hc text
  | .plain text => shape_bpe hl hc text
  | .message role content => shape_message hl hc role content
  | .assistantPrefix mode => by
    obtain ⟨-, -, hassistant, hstart, hend⟩ := controls (v := v)
    have hmode : isControl v (if thinkModeEnabled mode then v.thinkStartId else v.thinkEndId) = true := by
      split <;> assumption
    rw [Entry.tokens, chatAppendAssistantPrefix, shape_cons, shape_control hassistant, shape_control hmode]
    rfl
  | .token t => by rw [Entry.tokens, shape, List.flatMap_singleton, Entry.items]

/-- Every entry of a transcript adds its own control tokens and text. -/
theorem shape_transcript (hl : Loaded tokens merges v) (hc : Complete tokens merges) (t : List Entry) :
    shape v (transcriptTokens v t) = transcriptItems v t := by
  have hrun : ∀ t : List Entry, shape v (t.flatMap (Entry.tokens v)) = t.flatMap (Entry.items v) := by
    intro t
    induction t with
    | nil => rfl
    | cons entry t ih => rw [List.flatMap_cons, List.flatMap_cons, shape_append, shape_entry hl hc, ih]
  rw [transcriptTokens, chatBegin, shape_append, shape_control controls.1, hrun]
  rfl

/-! ## The text of marked tokens -/

theorem render_shape (ts : List Int) : spell (ds4TokenText v) (shape v ts) = renderTokensText v ts := by
  induction ts with
  | nil => rfl
  | cons t ts ih =>
    have hhead : spell (ds4TokenText v) (shape v [t]) = ds4TokenText v t := by
      rw [shape, List.flatMap_singleton]
      split
      · exact List.append_nil _
      · exact spell_letters _
    rw [shape_cons, spell_append, hhead, ih, renderTokensText, renderTokensText, List.flatMap_cons]

/-! ## The closing sentinel -/

/-- The text ends in the sentinel and holds it nowhere else. -/
def OneSentinel (text : Bytes) : Prop := toolResultEnd <:+ text ∧ ¬toolResultEnd <:+: text.dropLast

theorem once_at_end {d : UInt8} {l : Bytes} (hd : d ∉ l) {a : Bytes} (ha : ¬(d :: l) <:+: a) :
    ¬(d :: l) <:+: (a ++ (d :: l)).dropLast := by
  rintro ⟨x, y, hxy⟩
  obtain ⟨z, hz⟩ : ∃ z, a ++ (d :: l) = (a ++ (d :: l)).dropLast ++ [z] :=
    ⟨_, (List.dropLast_append_getLast (by simp)).symm⟩
  obtain ⟨-, hfirst⟩ := strstr_index (strstr_append hd [] a ha)
  have hlen := congrArg List.length hxy
  simp only [List.length_append, List.length_dropLast, List.length_cons] at hlen
  have hlate := hfirst x.length (by omega)
  have htext : a ++ (d :: l ++ []) = x ++ ((d :: l) ++ (y ++ [z])) := by
    rw [List.append_nil, hz, ← hxy]
    simp
  rw [htext, List.drop_left, startsWith_append] at hlate
  cases hlate

/-- The opening of a tool message and its escaped content. -/
theorem toolBody_no_sentinel (content : Bytes) :
    ¬toolResultEnd <:+: utf8 "<｜User｜>" ++ (utf8 "<tool_result>" ++ escapeTag toolResultEnd (utf8 "&lt;") content) := by
  have hend : toolResultEnd = [60, 47, 116, 111, 111, 108, 95, 114, 101, 115, 117, 108, 116, 62] := by decide
  have hrep : utf8 "&lt;" = [38, 108, 116, 59] := by decide
  have huser : utf8 "<｜User｜>" = [60, 239, 189, 156, 85, 115, 101, 114, 239, 189, 156, 62] := by decide
  have hopen : utf8 "<tool_result>" = [60, 116, 111, 111, 108, 95, 114, 101, 115, 117, 108, 116, 62] := by decide
  have hbody := @escapeTag_no_tag 60 38 toolResultEnd.tail [108, 116, 59]
    (by rw [hend]; decide) (by decide) content
  rw [hend, List.tail_cons] at hbody
  rw [hend, hrep, huser, hopen]
  -- a '<' of the opening is never followed by a '/'
  simp [List.infix_cons_iff, hbody]

theorem toolMessage_sentinel (hl : Loaded tokens merges v) (hc : Complete tokens merges) {role : Bytes}
    (hrole : isToolRole (cstr role)) (content : Option Bytes) :
    OneSentinel (renderTokensText v (chatAppendMessage v (some role) content)) := by
  have huser : ds4TokenText v v.userId = utf8 "<｜User｜>" :=
    hl.special_text (show (utf8 "<｜User｜>", v.userId) ∈ _ by simp [specials])
  have hsys : ¬(cstr role = utf8 "system" ∨ cstr role = utf8 "developer") ∧ cstr role ≠ utf8 "assistant" := by
    rcases hrole with h | h <;> rw [h] <;> decide
  have hend : toolResultEnd = 60 :: toolResultEnd.tail := by decide
  have hd : (60 : UInt8) ∉ toolResultEnd.tail := by decide
  have hbody := toolBody_no_sentinel (cstr (content.getD []))
  rw [← render_shape, shape_message hl hc, messageItems, Option.getD_some, if_neg hsys.1, if_neg hsys.2, if_pos hrole,
    spell_inl, huser, plainItems, spell_letters, ← List.append_assoc]
  refine ⟨List.suffix_append _ _, ?_⟩
  rw [hend] at hbody ⊢
  exact once_at_end hd hbody

end
end Ds4.Agent
