import Ds4.Server.Prompt

/- What the renderer of the prompt keeps from one turn to the next.

   PROVED here: what a turn is remembered under is a prefix of every later prompt
   (`next_turn_extends`), and the tail of a live continuation is what a replay of
   the whole history has after the turn (`live_tail_replays`). Both need that the
   later messages do not bring the first tool context: with it the reasoning of the
   old answers is rendered, without it it is dropped (`late_tool_context`,
   `late_tool_tail`). -/
namespace Ds4.Server
open Bytes

/-! ## The loop, cut in two -/

theorem renderMsgs_append (think : Bool) (replay : Nat → Bool) : ∀ (xs ys : List ChatMsg) (i : Nat) (p : Pending),
    renderMsgs think replay i p (xs ++ ys) =
      renderMsgs think replay i p xs ++ renderMsgs think replay (i + xs.length) (xs.foldl Pending.after p) ys
  | [], _, _, _ => rfl
  | m :: xs, ys, i, p => by
    rw [List.cons_append, renderMsgs, renderMsgs, renderMsgs_append think replay xs ys, List.append_assoc,
      List.length_cons, Nat.add_right_comm, Nat.add_assoc]
    rfl

/-- Only the answers depend on which reasoning is rendered. -/
theorem renderMsgs_congr {think : Bool} {replay replay' : Nat → Bool} : ∀ (ms : List ChatMsg) (i : Nat) (p : Pending),
    (∀ j (h : j < ms.length), ms[j].role = utf8 "assistant" → replay (i + j) = replay' (i + j)) →
    renderMsgs think replay i p ms = renderMsgs think replay' i p ms
  | [], _, _, _ => rfl
  | m :: ms, i, p, h => by
    have hhead : renderMsg think (replay i) p m = renderMsg think (replay' i) p m := by
      by_cases hm : m.role = utf8 "assistant"
      · rw [show replay i = replay' i from h 0 (Nat.zero_lt_succ _) hm]
      · rw [renderMsg, renderMsg, if_neg hm, if_neg hm]
    have htail := @renderMsgs_congr think replay replay' ms (i + 1) (p.after m) fun j hj hr => by
      rw [show i + 1 + j = i + (j + 1) by omega]
      exact h (j + 1) (Nat.succ_lt_succ hj) hr
    rw [renderMsgs, renderMsgs, hhead, htail]

/-- Where the loop starts counting does not matter when all reasoning is rendered. -/
theorem renderMsgs_index (think : Bool) (r : Bool) : ∀ (ms : List ChatMsg) (i j : Nat) (p : Pending),
    renderMsgs think (fun _ => r) i p ms = renderMsgs think (fun _ => r) j p ms
  | [], _, _, _ => rfl
  | m :: ms, i, j, p => by rw [renderMsgs, renderMsgs, renderMsgs_index think r ms (i + 1) (j + 1)]

theorem renderMsgs_system (think : Bool) (replay : Nat → Bool) : ∀ (ms : List ChatMsg) (i : Nat) (p : Pending),
    (∀ m ∈ ms, roleIsSystem m.role = true) →
    renderMsgs think replay i p ms = [] ∧ ms.foldl Pending.after p = p
  | [], _, _, _ => ⟨rfl, rfl⟩
  | m :: ms, i, p, h => by
    rw [List.forall_mem_cons] at h
    have hp : p.after m = p := by rw [Pending.after, if_pos h.1]
    obtain ⟨hmsgs, hfold⟩ := renderMsgs_system think replay ms (i + 1) p h.2
    rw [renderMsgs, renderMsg, if_pos h.1, List.foldl_cons, hp, hmsgs, hfold]
    exact ⟨rfl, rfl⟩

/-! ## The system text -/

theorem systemText_filter (toolSchemas : Bytes) (msgs : List ChatMsg) :
    systemText toolSchemas msgs = systemText toolSchemas (msgs.filter fun m => roleIsSystem m.role) := by
  rw [systemText, systemText, List.foldl_filter]
  congr 1
  funext system m
  split
  · rfl
  · rfl

theorem systemText_append (toolSchemas : Bytes) (msgs ext : List ChatMsg)
    (hext : ∀ m ∈ ext, roleIsSystem m.role = false) :
    systemText toolSchemas (msgs ++ ext) = systemText toolSchemas msgs := by
  have hnone : ext.filter (fun m => roleIsSystem m.role) = [] := by
    rw [List.filter_eq_nil_iff]
    intro m hm
    rw [hext m hm]
    exact Bool.false_ne_true
  rw [systemText_filter, List.filter_append, hnone, List.append_nil, ← systemText_filter]

/-! ## Tool context -/

theorem toolContext_append (toolSchemas : Bytes) (msgs ext : List ChatMsg)
    (h : chatHistoryUsesToolContext msgs toolSchemas = true) :
    chatHistoryUsesToolContext (msgs ++ ext) toolSchemas = true := by
  rw [chatHistoryUsesToolContext, Bool.or_eq_true] at h ⊢
  refine h.imp_right fun h => ?_
  rw [List.any_append, h, Bool.true_or]

theorem replays_all {msgs : List ChatMsg} {toolSchemas : Bytes}
    (h : chatHistoryUsesToolContext msgs toolSchemas = true) : replaysReasoning msgs toolSchemas = fun _ => true := by
  funext i
  rw [replaysReasoning, h, Bool.true_or]

theorem replays_none {msgs : List ChatMsg} {toolSchemas : Bytes}
    (h : chatHistoryUsesToolContext msgs toolSchemas = false) {i : Nat} (hi : (i : Int) ≤ lastUserIdx 0 (-1) msgs) :
    replaysReasoning msgs toolSchemas i = false := by
  rw [replaysReasoning, h, Bool.false_or, decide_eq_false_iff_not]
  omega

/-- The index found is not before a message of a user or a tool. -/
theorem le_lastUserIdx : ∀ (ms : List ChatMsg) (i : Nat) (last : Int), last < i →
    last ≤ lastUserIdx i last ms ∧
      ∀ j (h : j < ms.length), roleIsUserLike ms[j].role = true → ((i + j : Nat) : Int) ≤ lastUserIdx i last ms
  | [], _, _, _ => ⟨Int.le_refl _, fun j h => absurd h (Nat.not_lt_zero _)⟩
  | m :: ms, i, last, hlast => by
    obtain ⟨hle, hat⟩ := le_lastUserIdx ms (i + 1) (if roleIsUserLike m.role then i else last) (by split <;> omega)
    rw [lastUserIdx]
    refine ⟨Int.le_trans (by split <;> omega) hle, fun j hj hr => ?_⟩
    cases j with
    | zero =>
      rw [show roleIsUserLike m.role = true from hr, if_pos rfl] at hle ⊢
      exact hle
    | succ j =>
      have := hat j (Nat.lt_of_succ_lt_succ hj) hr
      rwa [show i + 1 + j = i + (j + 1) by omega] at this

/-- An answer is awaited when the last message that counts is of a user or a tool. -/
def awaitsAnswer (msgs : List ChatMsg) : Bool := (msgs.foldl Pending.after .start).assistant

theorem Pending.after_pending {p : Pending} {m : ChatMsg} (h : (p.after m).assistant = true) :
    m.role ≠ utf8 "assistant" ∧ (roleIsUserLike m.role = true ∨ p.assistant = true) := by
  rw [Pending.after] at h
  split at h
  · next hsys =>
    refine ⟨fun hr => ?_, .inr h⟩
    rw [hr] at hsys
    exact absurd hsys (by decide)
  · split at h
    · next huser =>
      rw [huser]
      exact ⟨by decide, .inl (by decide)⟩
    · split at h
      · next htool =>
        refine ⟨fun hr => ?_, .inl (by rw [roleIsUserLike, htool, Bool.or_true])⟩
        rw [hr] at htool
        exact absurd htool (by decide)
      · split at h
        · cases h
        · next hother => exact ⟨hother, .inr h⟩

/-- What was pending is still, or a message of a user or a tool has come after every answer. -/
theorem pending_assistant : ∀ (ms : List ChatMsg) (p : Pending), (ms.foldl Pending.after p).assistant = true →
    (p.assistant = true ∧ ∀ k (hk : k < ms.length), ms[k].role ≠ utf8 "assistant") ∨
      ∃ j, ∃ h : j < ms.length, roleIsUserLike ms[j].role = true ∧
        ∀ k (hk : k < ms.length), ms[k].role = utf8 "assistant" → k < j
  | [], p, h => .inl ⟨h, fun _ hk => absurd hk (Nat.not_lt_zero _)⟩
  | m :: ms, p, h => by
    rcases pending_assistant ms (p.after m) h with ⟨hp, hnone⟩ | ⟨j, hj, huser, hlast⟩
    · obtain ⟨hm, hpending⟩ := Pending.after_pending hp
      have hall : ∀ k (hk : k < (m :: ms).length), (m :: ms)[k].role ≠ utf8 "assistant" := by
        intro k hk
        cases k with
        | zero => exact hm
        | succ k => exact hnone k (Nat.lt_of_succ_lt_succ hk)
      rcases hpending with huser | hp
      · exact .inr ⟨0, Nat.zero_lt_succ _, huser, fun k hk hr => absurd hr (hall k hk)⟩
      · exact .inl ⟨hp, hall⟩
    · refine .inr ⟨j + 1, Nat.succ_lt_succ hj, huser, fun k hk hr => ?_⟩
      cases k with
      | zero => exact Nat.zero_lt_succ _
      | succ k => exact Nat.succ_lt_succ (hlast k (Nat.lt_of_succ_lt_succ hk) hr)

/-- Where an answer is awaited, every earlier answer stands before the last user. -/
theorem answers_before {msgs : List ChatMsg} (h : awaitsAnswer msgs = true) (ext : List ChatMsg) {j : Nat}
    (hj : j < msgs.length) (hr : msgs[j].role = utf8 "assistant") : (j : Int) ≤ lastUserIdx 0 (-1) (msgs ++ ext) := by
  rcases pending_assistant msgs .start h with ⟨hp, -⟩ | ⟨k, hk, huser, hlast⟩
  · cases hp
  · have hle := (le_lastUserIdx (msgs ++ ext) 0 (-1) (by decide)).2 k
      (by rw [List.length_append]; omega) (by rw [List.getElem_append_left hk]; exact huser)
    have := hlast j hj hr
    omega

/-! ## The next turn -/

/-- The answer that was generated, as a message. -/
def answer (reasoning content : Bytes) (calls : List ToolCall) (rawDsml : Bytes) : ChatMsg where
  role := utf8 "assistant"
  content := content
  reasoning := reasoning
  calls := calls
  rawDsml := rawDsml

@[simp] theorem answer_role (reasoning content : Bytes) (calls : List ToolCall) (rawDsml : Bytes) :
    (answer reasoning content calls rawDsml).role = utf8 "assistant" := rfl

theorem renderMsg_answer {think replay : Bool} {p : Pending} (hp : p.assistant = true)
    (reasoning content : Bytes) (calls : List ToolCall) (rawDsml : Bytes) :
    renderMsg think replay p (answer reasoning content calls rawDsml) =
      assistantTag ++ thinkSection think replay reasoning ++ content ++ appendDsmlToolCallsText rawDsml calls ++
        endOfSentence := by
  rw [renderMsg, answer_role, if_neg (by decide), if_neg (by decide), if_neg (by decide), if_pos rfl, hp, if_pos rfl]
  rfl

/-- A prompt that awaits an answer, and any longer one. -/
theorem render_extends {msgs ext : List ChatMsg} {toolSchemas : Bytes} {mode : ThinkMode}
    {m : ChatMsg} (hawaits : awaitsAnswer msgs = true) (hm : roleIsSystem m.role = false)
    (hext : ∀ e ∈ ext, roleIsSystem e.role = false)
    (hreplay : ∀ j (h : j < msgs.length), msgs[j].role = utf8 "assistant" →
      replaysReasoning msgs toolSchemas j = replaysReasoning (msgs ++ m :: ext) toolSchemas j) :
    ∃ head rest, renderChatPromptText msgs toolSchemas mode =
        head ++ (assistantTag ++ (if thinkModeEnabled mode then thinkTag else thinkEndTag)) ∧
      renderChatPromptText (msgs ++ m :: ext) toolSchemas mode =
        head ++ renderMsg (thinkModeEnabled mode) (replaysReasoning (msgs ++ m :: ext) toolSchemas msgs.length)
          (msgs.foldl Pending.after .start) m ++ rest := by
  have hsystem := systemText_append toolSchemas msgs (m :: ext) (List.forall_mem_cons.mpr ⟨hm, hext⟩)
  have hmsgs := @renderMsgs_congr (thinkModeEnabled mode) (replaysReasoning msgs toolSchemas)
    (replaysReasoning (msgs ++ m :: ext) toolSchemas) msgs 0 .start fun j hj hr => by
      rw [Nat.zero_add]
      exact hreplay j hj hr
  refine ⟨beginOfSentence ++ (if mode = .max then thinkMaxPrefix else []) ++ systemText toolSchemas msgs ++
      renderMsgs (thinkModeEnabled mode) (replaysReasoning msgs toolSchemas) 0 .start msgs,
    renderMsgs (thinkModeEnabled mode) (replaysReasoning (msgs ++ m :: ext) toolSchemas) (msgs.length + 1)
        ((msgs.foldl Pending.after .start).after m) ext ++
      assistantPrefix (thinkModeEnabled mode) ((msgs ++ m :: ext).foldl Pending.after .start), ?_, ?_⟩
  · rw [renderChatPromptText, assistantPrefix, show (msgs.foldl Pending.after .start).assistant = true from hawaits,
      if_pos rfl]
  · rw [renderChatPromptText, hsystem, renderMsgs_append, renderMsgs, Nat.zero_add, hmsgs]
    simp only [List.append_assoc]

theorem checkpoint_extends {msgs ext : List ChatMsg} {toolSchemas : Bytes} {mode : ThinkMode}
    (hawaits : awaitsAnswer msgs = true) (hext : ∀ e ∈ ext, roleIsSystem e.role = false)
    (htools : chatHistoryUsesToolContext msgs toolSchemas = true) (reasoning content : Bytes)
    (calls : List ToolCall) (rawDsml : Bytes) :
    renderChatPromptText msgs toolSchemas mode ++ buildToolCheckpointSuffix mode content reasoning calls rawDsml <+:
      renderChatPromptText (msgs ++ answer reasoning content calls rawDsml :: ext) toolSchemas mode := by
  have hall := replays_all htools
  have hall' := replays_all (toolContext_append toolSchemas msgs (answer reasoning content calls rawDsml :: ext) htools)
  obtain ⟨head, rest, hnow, hlater⟩ := @render_extends msgs ext toolSchemas mode (answer reasoning content calls rawDsml)
    hawaits (by rw [answer_role]; decide) hext (fun j _ _ => by rw [hall, hall'])
  refine ⟨rest, ?_⟩
  rw [hnow, hlater, renderMsg_answer hawaits, hall', thinkSection, buildToolCheckpointSuffix]
  cases thinkModeEnabled mode <;> simp [List.append_assoc]

/-- A prompt in thinking mode that awaits an answer ends in the open tag. -/
theorem visible_of_prompt {mode : ThinkMode} {head : Bytes} (hmode : thinkModeEnabled mode = true) (content : Bytes) :
    buildToollessThinkingVisibleText (head ++ (assistantTag ++ thinkTag)) mode content =
      some (head ++ assistantTag ++ thinkEndTag ++ content ++ endOfSentence) := by
  have hlen : (head ++ (assistantTag ++ thinkTag)).length - thinkTag.length = (head ++ assistantTag).length := by
    rw [← List.append_assoc, List.length_append, Nat.add_sub_cancel]
  rw [buildToollessThinkingVisibleText, hmode, if_neg (by decide), hlen, ← List.append_assoc, List.drop_left,
    List.take_left, if_neg]
  rw [not_or, List.length_append]
  exact ⟨by omega, fun h => h rfl⟩

theorem visible_extends {msgs ext : List ChatMsg} {toolSchemas : Bytes} {mode : ThinkMode} {user : ChatMsg}
    (hawaits : awaitsAnswer msgs = true) (hext : ∀ e ∈ ext, roleIsSystem e.role = false)
    (huser : user.role = utf8 "user") (hmode : thinkModeEnabled mode = true) (reasoning content rawDsml : Bytes)
    (htools : chatHistoryUsesToolContext (msgs ++ answer reasoning content [] rawDsml :: user :: ext) toolSchemas = false) :
    ∃ visible, buildToollessThinkingVisibleText (renderChatPromptText msgs toolSchemas mode) mode content = some visible ∧
      visible <+: renderChatPromptText (msgs ++ answer reasoning content [] rawDsml :: user :: ext) toolSchemas mode := by
  have hnone : chatHistoryUsesToolContext msgs toolSchemas = false := by
    rw [Bool.eq_false_iff] at htools ⊢
    exact fun h => htools (toolContext_append toolSchemas msgs _ h)
  have hlast : (msgs.length : Int) ≤ lastUserIdx 0 (-1) (msgs ++ answer reasoning content [] rawDsml :: user :: ext) := by
    have hle := (le_lastUserIdx (msgs ++ answer reasoning content [] rawDsml :: user :: ext) 0 (-1) (by decide)).2
      (msgs.length + 1) (by simp only [List.length_append, List.length_cons]; omega) (by
        rw [List.getElem_append_right (by omega)]
        simp only [Nat.add_sub_cancel_left]
        show roleIsUserLike user.role = true
        rw [huser]
        decide)
    omega
  have hbefore : ∀ j (h : j < msgs.length), msgs[j].role = utf8 "assistant" →
      (j : Int) ≤ lastUserIdx 0 (-1) msgs := by
    intro j hj hr
    have := answers_before hawaits [] hj hr
    rwa [List.append_nil] at this
  obtain ⟨head, rest, hnow, hlater⟩ := @render_extends msgs (user :: ext) toolSchemas mode
    (answer reasoning content [] rawDsml) hawaits (by rw [answer_role]; decide)
    (List.forall_mem_cons.mpr ⟨by rw [huser]; decide, hext⟩) (fun j hj hr => by
      rw [replays_none hnone (hbefore j hj hr), replays_none htools (answers_before hawaits _ hj hr)])
  rw [hmode, if_pos rfl] at hnow
  refine ⟨_, by rw [hnow]; exact visible_of_prompt hmode content, rest, ?_⟩
  rw [hlater, renderMsg_answer hawaits, replays_none htools hlast, thinkSection, Bool.and_false,
    if_neg Bool.false_ne_true, appendDsmlToolCallsText, if_pos rfl]
  simp only [List.append_assoc, List.nil_append]

/-- **The next prompt extends what the turn is remembered under**: with tools the
    turn as it was sampled, without them the visible text. -/
theorem next_turn_extends (msgs ext : List ChatMsg) (toolSchemas : Bytes) (mode : ThinkMode)
    (reasoning content : Bytes) (calls : List ToolCall) (rawDsml : Bytes) (user : ChatMsg)
    (hawaits : awaitsAnswer msgs = true) (hext : ∀ e ∈ ext, roleIsSystem e.role = false)
    (huser : user.role = utf8 "user") :
    (chatHistoryUsesToolContext msgs toolSchemas = true →
      renderChatPromptText msgs toolSchemas mode ++ buildToolCheckpointSuffix mode content reasoning calls rawDsml <+:
        renderChatPromptText (msgs ++ answer reasoning content calls rawDsml :: ext) toolSchemas mode) ∧
    (thinkModeEnabled mode = true →
      chatHistoryUsesToolContext (msgs ++ answer reasoning content [] rawDsml :: user :: ext) toolSchemas = false →
      ∃ visible, buildToollessThinkingVisibleText (renderChatPromptText msgs toolSchemas mode) mode content = some visible ∧
        visible <+: renderChatPromptText (msgs ++ answer reasoning content [] rawDsml :: user :: ext) toolSchemas mode) :=
  ⟨fun htools => checkpoint_extends hawaits hext htools reasoning content calls rawDsml,
    fun hmode htools => visible_extends hawaits hext huser hmode reasoning content rawDsml htools⟩

def plainMsg (role content : String) : ChatMsg where
  role := utf8 role
  content := utf8 content
  reasoning := []
  calls := []
  rawDsml := []

theorem next_turn_extends_sample :
    renderChatPromptText [plainMsg "user" "a"] (utf8 "s") .high ++ buildToolCheckpointSuffix .high (utf8 "b") (utf8 "r") [] [] <+:
        renderChatPromptText ([plainMsg "user" "a"] ++ answer (utf8 "r") (utf8 "b") [] [] :: [plainMsg "tool" "d"]) (utf8 "s") .high ∧
      ∃ visible, buildToollessThinkingVisibleText (renderChatPromptText [plainMsg "user" "a"] [] .high) .high (utf8 "b") =
          some visible ∧
        visible <+: renderChatPromptText
          ([plainMsg "user" "a"] ++ answer (utf8 "r") (utf8 "b") [] [] :: plainMsg "user" "c" :: []) [] .high :=
  ⟨(next_turn_extends [plainMsg "user" "a"] [plainMsg "tool" "d"] (utf8 "s") .high (utf8 "r") (utf8 "b") [] [] (plainMsg "user" "c")
      (by decide) (by decide) rfl).1 (by decide),
    (next_turn_extends [plainMsg "user" "a"] [] [] .high (utf8 "r") (utf8 "b") [] [] (plainMsg "user" "c")
      (by decide) (by decide) rfl).2 rfl (by decide)⟩

/-- A tool result that comes later: the old reasoning is rendered after all. -/
theorem late_tool_context :
    awaitsAnswer [plainMsg "user" "a"] = true ∧ chatHistoryUsesToolContext [plainMsg "user" "a"] [] = false ∧
      roleIsSystem (plainMsg "tool" "d").role = false ∧
      ¬ ∃ visible, buildToollessThinkingVisibleText (renderChatPromptText [plainMsg "user" "a"] [] .high) .high (utf8 "b") =
          some visible ∧
        visible <+: renderChatPromptText
          ([plainMsg "user" "a"] ++ answer (utf8 "r") (utf8 "b") [] [] :: plainMsg "user" "c" :: [plainMsg "tool" "d"]) [] .high := by
  refine ⟨by decide, by decide, by decide, ?_⟩
  rintro ⟨visible, hvisible, hprefix⟩
  have hno : (buildToollessThinkingVisibleText (renderChatPromptText [plainMsg "user" "a"] [] .high) .high (utf8 "b")).any
      (fun v => v.isPrefixOf (renderChatPromptText
        ([plainMsg "user" "a"] ++ answer (utf8 "r") (utf8 "b") [] [] :: plainMsg "user" "c" :: [plainMsg "tool" "d"]) [] .high)) =
      false := by
    decide +kernel
  rw [hvisible, Option.any_some, List.isPrefixOf_iff_prefix.mpr hprefix] at hno
  cases hno

/-! ## The live tail -/

theorem renderMsgs_live (think : Bool) (ms : List ChatMsg) (i : Nat) :
    renderMsgs think (fun _ => true) i .start ms = renderMsgs think (fun _ => true) 0 .start ms :=
  renderMsgs_index think true ms i 0 .start

/-- After an answer nothing is pending, and the text ends in its end marker. -/
theorem renderMsgs_answered (think : Bool) (replay : Nat → Bool) (xs : List ChatMsg) {m : ChatMsg}
    (hm : m.role = utf8 "assistant") : (xs ++ [m]).foldl Pending.after .start = .start ∧
      ∃ body, renderMsgs think replay 0 .start (xs ++ [m]) = body ++ endOfSentence := by
  refine ⟨?_, ?_⟩
  · rw [List.foldl_append, List.foldl_cons, List.foldl_nil, Pending.after, hm, if_neg (by decide), if_neg (by decide),
      if_neg (by decide), if_pos rfl]
    rfl
  · rw [renderMsgs_append, renderMsgs, renderMsgs, renderMsg, hm, if_neg (by decide), if_neg (by decide),
      if_neg (by decide), if_pos rfl, List.append_nil, ← List.append_assoc]
    exact ⟨_, rfl⟩

/-- **The live tail is the suffix of the full replay.** -/
theorem live_tail_replays (msgs : List ChatMsg) (toolSchemas : Bytes) (mode : ThinkMode) (k : Nat) (m : ChatMsg)
    (hk : 0 < k) (hm : msgs[k - 1]? = some m) (hrole : m.role = utf8 "assistant")
    (htools : chatHistoryUsesToolContext (msgs.take k) toolSchemas = true) :
    ∃ body, renderChatPromptText (msgs.take k ++ (msgs.drop k).filter fun m => roleIsSystem m.role) toolSchemas mode =
        body ++ endOfSentence ∧
      renderChatPromptText msgs toolSchemas mode = body ++ renderLiveToolTail msgs k mode := by
  obtain ⟨xs, hxs⟩ : ∃ xs, msgs.take k = xs ++ [m] := by
    refine ⟨msgs.take (k - 1), ?_⟩
    obtain ⟨j, rfl⟩ : ∃ j, k = j + 1 := ⟨k - 1, by omega⟩
    rw [List.take_add_one, show msgs[j]? = some m from hm]
    rfl
  have hall : msgs = msgs.take k ++ msgs.drop k := (List.take_append_drop k msgs).symm
  have hlen : (msgs.take k).length = k := by
    have hlt := (List.getElem?_eq_some_iff.mp hm).1
    rw [List.length_take]
    omega
  have hsystem : systemText toolSchemas (msgs.take k ++ (msgs.drop k).filter fun m => roleIsSystem m.role) =
      systemText toolSchemas msgs := by
    rw [systemText_filter, List.filter_append, List.filter_filter]
    conv_rhs => rw [hall, systemText_filter, List.filter_append]
    simp only [Bool.and_self]
  have hreplays : replaysReasoning msgs toolSchemas = fun _ => true := by
    apply replays_all
    rw [hall]
    exact toolContext_append _ _ _ htools
  obtain ⟨hstart, body, hbody⟩ := renderMsgs_answered (thinkModeEnabled mode) (fun _ => true) xs hrole
  rw [← hxs] at hstart hbody
  have hskip := renderMsgs_system (thinkModeEnabled mode) (fun _ => true)
    ((msgs.drop k).filter fun m => roleIsSystem m.role) (0 + (msgs.take k).length) .start
    fun m hm => (List.mem_filter.mp hm).2
  refine ⟨beginOfSentence ++ (if mode = .max then thinkMaxPrefix else []) ++ systemText toolSchemas msgs ++ body, ?_, ?_⟩
  · rw [renderChatPromptText, hsystem, replays_all (toolContext_append _ _ _ htools), renderMsgs_append,
      List.foldl_append, hstart, hskip.1, hskip.2, hbody]
    simp only [List.append_assoc, List.append_nil, assistantPrefix]
    rfl
  · have hloop : renderMsgs (thinkModeEnabled mode) (fun _ => true) 0 .start msgs = body ++ endOfSentence ++
        renderMsgs (thinkModeEnabled mode) (fun _ => true) k .start (msgs.drop k) := by
      conv_lhs => rw [hall]
      rw [renderMsgs_append, hstart, hbody, Nat.zero_add, hlen]
    have hfold : msgs.foldl Pending.after .start = (msgs.drop k).foldl Pending.after .start := by
      conv_lhs => rw [hall]
      rw [List.foldl_append, hstart]
    rw [renderChatPromptText, hreplays, hloop, hfold, renderLiveToolTail]
    simp only [List.append_assoc]

theorem live_tail_replays_sample : ∃ body,
    renderChatPromptText ([plainMsg "user" "a", plainMsg "assistant" "b", plainMsg "tool" "d"].take 2 ++
        ([plainMsg "user" "a", plainMsg "assistant" "b", plainMsg "tool" "d"].drop 2).filter fun m => roleIsSystem m.role)
        (utf8 "s") .high = body ++ endOfSentence ∧
      renderChatPromptText [plainMsg "user" "a", plainMsg "assistant" "b", plainMsg "tool" "d"] (utf8 "s") .high =
        body ++ renderLiveToolTail [plainMsg "user" "a", plainMsg "assistant" "b", plainMsg "tool" "d"] 2 .high :=
  live_tail_replays [plainMsg "user" "a", plainMsg "assistant" "b", plainMsg "tool" "d"] (utf8 "s") .high 2 (plainMsg "assistant" "b")
    (by decide) rfl rfl (by decide)

/-- A history whose only tool message comes after the live turn. -/
def lateTool : List ChatMsg :=
  [plainMsg "user" "a", answer (utf8 "r") (utf8 "b") [] [], plainMsg "user" "c", plainMsg "assistant" "d", plainMsg "tool" "e"]

theorem late_tool_tail : chatHistoryUsesToolContext lateTool [] = true ∧ lateTool[4 - 1]? = some (plainMsg "assistant" "d") ∧
    ¬ ∃ body, renderChatPromptText (lateTool.take 4 ++ (lateTool.drop 4).filter fun m => roleIsSystem m.role) [] .high =
        body ++ endOfSentence ∧
      renderChatPromptText lateTool [] .high = body ++ renderLiveToolTail lateTool 4 .high := by
  refine ⟨by decide, rfl, ?_⟩
  rintro ⟨body, hnow, hall⟩
  have hbody : (renderChatPromptText lateTool [] .high).take ((renderChatPromptText lateTool [] .high).length -
      (renderLiveToolTail lateTool 4 .high).length) = body := by
    rw [hall, List.length_append, Nat.add_sub_cancel, List.take_left]
  rw [← hbody] at hnow
  exact absurd hnow (by decide +kernel)

end Ds4.Server
