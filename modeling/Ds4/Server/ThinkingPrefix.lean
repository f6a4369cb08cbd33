import Ds4.Server.StreamedText
import Ds4.Server.DsmlRoundTrip

/- Reasoning and content before a rendered tool block, to the parser that requires
   closed thinking.

   PROVED here (`thinking_before_calls`): the parser returns the reasoning, the trimmed
   content and the calls of the block alone exactly when the block holds no
   `</think>` and the reasoning does not begin with `<think>`. It looks for the block
   after the last `</think>` of the whole text, argument values included, but splits
   the reasoning at the first one: `closed_in_value` loses its call. -/
namespace Ds4.Server
open Bytes

/-! ## Where a literal can stand -/

/-- A literal does not go over a byte it does not have. -/
theorem infix_append_cons {lit : Bytes} {c : UInt8} (hc : c ∉ lit) (b : Bytes) : ∀ {a : Bytes},
    lit <:+: a ++ c :: b → lit <:+: a ∨ lit <:+: c :: b
  | [], h => .inr h
  | d :: a, h => by
    rw [List.cons_append, List.infix_cons_iff] at h
    rcases h with h | h
    · have hstart : startsWith lit (d :: a ++ c :: b) = true :=
        startsWith_iff.mpr (h.imp fun _ he => he.symm)
      rw [startsWith_append_cons hc] at hstart
      obtain ⟨z, hz⟩ := startsWith_iff.mp hstart
      exact .inl ⟨[], z, hz.symm⟩
    · rcases infix_append_cons hc b h with h | h
      · exact .inl (h.trans (List.suffix_cons d a).isInfix)
      · exact .inr h

/-- Bytes without the first byte of a literal hold no beginning of it. -/
theorem infix_skip {d : UInt8} {l s : Bytes} : ∀ {p : Bytes}, d ∉ p → (d :: l) <:+: p ++ s → (d :: l) <:+: s
  | [], _, h => h
  | c :: p, hp, h => by
    rw [List.mem_cons, not_or] at hp
    rw [List.cons_append, List.infix_cons_iff] at h
    rcases h with ⟨z, hz⟩ | h
    · exact absurd (List.cons.inj hz).1 hp.1
    · exact infix_skip hp.2 h

/-- What is found stands nowhere before. -/
theorem strstr_first {lit s a r p y : Bytes} (h : strstr lit s = some (a, r)) (hs : s = p ++ y)
    (hy : startsWith lit y = true) : a.length ≤ p.length := by
  rw [← Nat.not_lt]
  intro hlt
  have hdrop := strstr_drop h (Nat.le_of_lt hlt)
  rw [hs, List.drop_left, strstr_of_startsWith hy] at hdrop
  have hnil := congrArg (fun v => v.1.length) (Option.some.inj hdrop)
  simp only [List.length_nil, List.length_drop] at hnil
  omega

/-- The last occurrence, when none stands behind it. -/
theorem findLastSubstr_here {d : UInt8} {l s : Bytes} (hd : d ∉ l) (hno : ¬ (d :: l) <:+: s) (p : Bytes) :
    findLastSubstr (d :: l) (p ++ (d :: l ++ s)) = some (d :: l ++ s) := by
  obtain ⟨r, hr, hle⟩ := findLastSubstr_last (List.cons_ne_nil d l) (startsWith_append (d :: l) s) p
  obtain ⟨hsuffix, hstart⟩ := findLastSubstr_suffix hr
  have hin : r <:+ d :: l ++ s :=
    List.suffix_of_suffix_length_le hsuffix (List.suffix_append p _) hle
  rw [List.cons_append, List.suffix_cons_iff] at hin
  rcases hin with rfl | hin
  · exact hr
  · obtain ⟨z, rfl⟩ := startsWith_iff.mp hstart
    exact absurd (infix_skip hd ((List.prefix_append _ _).isInfix.trans hin.isInfix)) hno

/-! ## The block -/

theorem block_shape (calls : List ToolCall) (hne : calls ≠ []) :
    ∃ rest, appendDsmlToolCallsText [] calls = utf8 "\n\n" ++ ((dsmlSyntax .dsml).toolCallsStart ++ rest) := by
  have hlit : utf8 "\n\n<｜DSML｜tool_calls>\n" = utf8 "\n\n" ++ ((dsmlSyntax .dsml).toolCallsStart ++ [10]) := by
    decide
  refine ⟨10 :: (calls.flatMap appendDsmlToolCall ++ utf8 "</｜DSML｜tool_calls>"), ?_⟩
  rw [appendDsmlToolCallsText, if_neg hne, if_neg (by simp), hlit]
  simp only [List.append_assoc, List.cons_append, List.nil_append]

theorem blankMarker (rest : Bytes) : strstr (dsmlSyntax .dsml).toolCallsStart
    (utf8 "\n\n" ++ ((dsmlSyntax .dsml).toolCallsStart ++ rest)) =
      some (utf8 "\n\n", (dsmlSyntax .dsml).toolCallsStart ++ rest) := by
  obtain ⟨l, hl, h60, -⟩ := marker_shape .dsml
  rw [hl]
  exact strstr_append h60 rest _ fun hin => absurd (hin.subset List.mem_cons_self) (by decide)

/-- Behind text without a marker the block is found at its blank lines. -/
theorem findToolStart_block {c : Bytes} (hc : findAnyToolStart c = none) (rest : Bytes) :
    findToolStart (c ++ (utf8 "\n\n" ++ ((dsmlSyntax .dsml).toolCallsStart ++ rest))) =
      some (.dsml, c, utf8 "\n\n" ++ ((dsmlSyntax .dsml).toolCallsStart ++ rest)) := by
  obtain ⟨l, hl, h60, -⟩ := marker_shape .dsml
  have hno : ¬ (60 :: l : Bytes) <:+: c ++ utf8 "\n\n" := by
    intro hin
    have h10 : (10 : UInt8) ∉ 60 :: l := by rw [← hl]; decide
    rcases infix_append_cons h10 [10] (show (60 :: l : Bytes) <:+: c ++ 10 :: [10] from hin) with hin | hin
    · rw [← hl] at hin
      exact strstr_of_infix hin (strstr_none hc .dsml)
    · exact absurd (hin.subset List.mem_cons_self) (by decide)
  -- the marker is first behind the blank lines, so the blank lines are first before it
  have hmark : strstr (dsmlSyntax .dsml).toolCallsStart
      (c ++ (utf8 "\n\n" ++ ((dsmlSyntax .dsml).toolCallsStart ++ rest))) =
      some (c ++ utf8 "\n\n", (dsmlSyntax .dsml).toolCallsStart ++ rest) := by
    rw [hl, ← List.append_assoc]
    exact strstr_append h60 rest _ hno
  have hblock : startsWith (utf8 "\n\n" ++ (dsmlSyntax .dsml).toolCallsStart)
      (utf8 "\n\n" ++ ((dsmlSyntax .dsml).toolCallsStart ++ rest)) = true := by
    rw [← List.append_assoc]
    exact startsWith_append _ _
  have hfound : strstr (utf8 "\n\n" ++ (dsmlSyntax .dsml).toolCallsStart)
      (c ++ (utf8 "\n\n" ++ ((dsmlSyntax .dsml).toolCallsStart ++ rest))) =
      some (c, utf8 "\n\n" ++ ((dsmlSyntax .dsml).toolCallsStart ++ rest)) := by
    cases hs : strstr (utf8 "\n\n" ++ (dsmlSyntax .dsml).toolCallsStart)
        (c ++ (utf8 "\n\n" ++ ((dsmlSyntax .dsml).toolCallsStart ++ rest))) with
    | none =>
      apply absurd hs
      apply strstr_of_infix
      exact ⟨c, rest, by simp only [List.append_assoc]⟩
    | some v =>
      obtain ⟨a, r⟩ := v
      obtain ⟨hsplit, hstart⟩ := strstr_sound hs
      obtain ⟨z, hz⟩ := startsWith_iff.mp hstart
      have hle := strstr_first hs rfl hblock
      have hge := strstr_first hmark (p := a ++ utf8 "\n\n") (y := (dsmlSyntax .dsml).toolCallsStart ++ z)
        (by rw [hsplit, hz]; simp only [List.append_assoc]) (startsWith_append _ _)
      simp only [List.length_append] at hge
      obtain ⟨rfl, rfl⟩ := List.append_inj hsplit (by omega)
      rfl
  obtain ⟨others, hothers⟩ : ∃ others, toolStartCandidates =
      (.dsml, utf8 "\n\n" ++ (dsmlSyntax .dsml).toolCallsStart) :: others := ⟨_, rfl⟩
  rw [findToolStart, hothers, List.findSome?_cons, hfound]
  rfl

/-! ## The whole text -/

section
variable {reasoning content : Bytes} {calls : List ToolCall}

/-- A tag that the end of the reasoning cuts short is none. -/
theorem startsWith_thinkOpen (s : Bytes) :
    startsWith thinkOpen (reasoning ++ (thinkClose ++ s)) = startsWith thinkOpen reasoning := by
  have hopen : thinkOpen = [60, 116, 104, 105, 110, 107, 62] := by decide
  have hclose : thinkClose = [60, 47, 116, 104, 105, 110, 107, 62] := by decide
  rw [hopen, hclose]
  rcases reasoning with _ | ⟨a, _ | ⟨b, _ | ⟨c, _ | ⟨d, _ | ⟨e, _ | ⟨f, _ | ⟨g, r⟩⟩⟩⟩⟩⟩⟩ <;> simp

/-- The first end of the reasoning is the one behind it. -/
theorem strstr_reasoning (hr : ¬ thinkClose <:+: reasoning) (s : Bytes) (k : Nat) :
    strstr thinkClose ((reasoning.drop k) ++ (thinkClose ++ s)) = some (reasoning.drop k, thinkClose ++ s) := by
  obtain ⟨l, hl, h60, -⟩ := thinkClose_shape
  rw [hl] at hr ⊢
  exact strstr_append h60 s _ fun hin => hr (hin.trans (List.drop_suffix k reasoning).isInfix)

theorem thinkStart_le (s : Bytes) : thinkStart (reasoning ++ (thinkClose ++ s)) ≤ reasoning.length := by
  rw [thinkStart, startsWith_thinkOpen]
  split
  · next h =>
    obtain ⟨z, hz⟩ := startsWith_iff.mp h
    rw [hz, List.length_append]
    exact Nat.le_add_right _ _
  · exact Nat.zero_le _

/-- What the parser takes for the reasoning: without an opening tag. -/
theorem reasoning_split (hr : ¬ thinkClose <:+: reasoning) (s : Bytes) :
    strstr thinkClose ((reasoning ++ (thinkClose ++ s)).drop (thinkStart (reasoning ++ (thinkClose ++ s)))) =
      some (reasoning.drop (thinkStart (reasoning ++ (thinkClose ++ s))), thinkClose ++ s) := by
  rw [List.drop_append_of_le_length (thinkStart_le s)]
  exact strstr_reasoning hr s _

theorem drop_thinkStart_iff (s : Bytes) :
    reasoning.drop (thinkStart (reasoning ++ (thinkClose ++ s))) = reasoning ↔ startsWith thinkOpen reasoning = false := by
  have hle := @thinkStart_le reasoning s
  constructor
  · intro h
    have hlen := congrArg List.length h
    rw [List.length_drop] at hlen
    rw [Bool.eq_false_iff]
    intro hopen
    have hstart : thinkStart (reasoning ++ (thinkClose ++ s)) = thinkOpen.length := by
      rw [thinkStart, startsWith_thinkOpen, if_pos hopen]
    have : 0 < thinkOpen.length := by decide
    omega
  · intro h
    rw [thinkStart, startsWith_thinkOpen, h, if_neg Bool.false_ne_true, List.drop_zero]

/-- The text up to the block, trimmed. -/
theorem trim_head (s : Bytes) :
    trimToolSeparatorWs (reasoning ++ (thinkClose ++ s)) = reasoning ++ (thinkClose ++ trimToolSeparatorWs s) := by
  have hclose : ∀ u : Bytes, reasoning ++ (thinkClose ++ u) = (reasoning ++ utf8 "</think") ++ 62 :: u := by
    intro u
    have htag : thinkClose = utf8 "</think" ++ [62] := by decide
    rw [htag]
    simp only [List.append_assoc, List.singleton_append]
  rw [hclose, trim_append (by decide), hclose]

variable {block : Bytes}

/-- The last end of the reasoning is the one before the content. -/
theorem parserSearch_block (hc : ¬ thinkClose <:+: content) (hblock : ¬ thinkClose <:+: block)
    (hnl : ∃ rest, block = 10 :: rest) :
    parserSearch (reasoning ++ (thinkClose ++ (content ++ block))) true = some (content ++ block) := by
  obtain ⟨l, hl, h60, -⟩ := thinkClose_shape
  have hno : ¬ thinkClose <:+: content ++ block := by
    intro hin
    obtain ⟨rest, rfl⟩ := hnl
    rcases infix_append_cons (by decide) rest hin with hin | hin
    · exact hc hin
    · exact hblock hin
  rw [parserSearch, if_pos rfl]
  rw [hl] at hno ⊢
  rw [findLastSubstr_here h60 hno, Option.map_some, List.drop_left]

/-- What the parser returns on the block alone. -/
theorem parse_block {rest : Bytes}
    (hblock : block = utf8 "\n\n" ++ ((dsmlSyntax .dsml).toolCallsStart ++ rest)) {msg : ParsedMessage}
    (hparse : parseGeneratedMessageEx block false = some msg) :
    ∃ r, parseInvokes (dsmlSyntax .dsml) (((dsmlSyntax .dsml).toolCallsStart ++ rest).length + 1)
      (((dsmlSyntax .dsml).toolCallsStart ++ rest).drop (dsmlSyntax .dsml).toolCallsStart.length) = some (msg.calls, r) := by
  have hstart : findToolStart block = some (.dsml, [], block) := by
    rw [hblock]
    exact findToolStart_block findAnyToolStart_nil rest
  have hmark := blankMarker rest
  rw [← hblock] at hmark
  unfold parseGeneratedMessageEx at hparse
  simp only [Bool.false_eq_true, if_false, hstart, hmark, Option.bind_eq_bind, Option.bind_some,
    Option.bind_eq_some_iff] at hparse
  obtain ⟨⟨calls, r⟩, hcalls, he⟩ := hparse
  cases he
  exact ⟨r, hcalls⟩

/-- Where the block holds no end of the reasoning, its calls are read behind the content. -/
theorem parse_behind_content {rest : Bytes} (hc : ¬ thinkClose <:+: content) (hmark : findAnyToolStart content = none)
    (hno : ¬ thinkClose <:+: block)
    (hblock : block = utf8 "\n\n" ++ ((dsmlSyntax .dsml).toolCallsStart ++ rest)) {msg : ParsedMessage}
    (hparse : parseGeneratedMessageEx block false = some msg) :
    ∃ whole, parseGeneratedMessageEx (reasoning ++ (thinkClose ++ (content ++ block))) true = some whole ∧
      whole.calls = msg.calls ∧
      (whole.content, whole.reasoning) =
        splitReasoningContent (reasoning ++ (thinkClose ++ trimToolSeparatorWs content)) := by
  obtain ⟨r, hcalls⟩ := parse_block hblock hparse
  have hsearch := @parserSearch_block reasoning content block hc hno ⟨_, by rw [hblock]; rfl⟩
  have hstart : findToolStart (content ++ block) = some (.dsml, content, block) := by
    rw [hblock]
    exact findToolStart_block hmark rest
  have hmarker := blankMarker rest
  rw [← hblock] at hmarker
  have hhead : (reasoning ++ (thinkClose ++ (content ++ block))).take
      ((reasoning ++ (thinkClose ++ (content ++ block))).length - block.length) =
      reasoning ++ (thinkClose ++ content) := by
    have hall : reasoning ++ (thinkClose ++ (content ++ block)) = (reasoning ++ (thinkClose ++ content)) ++ block := by
      simp only [List.append_assoc]
    rw [hall, List.length_append, Nat.add_sub_cancel, List.take_left]
  have hsearch' : (findLastSubstr (utf8 "</think>") (reasoning ++ (thinkClose ++ (content ++ block)))).map
      (fun r => r.drop 8) = some (content ++ block) := hsearch
  unfold parseGeneratedMessageEx
  simp only [if_true, hsearch', hstart, hmarker, hcalls, hhead, trim_head, Option.bind_eq_bind, Option.bind_some]
  exact ⟨_, rfl, rfl, rfl⟩

/-- A block that holds an end of the reasoning leaves more content than there is. -/
theorem content_of_closed_block {rest : Bytes} (hno : thinkClose <:+: block)
    (hblock : block = utf8 "\n\n" ++ ((dsmlSyntax .dsml).toolCallsStart ++ rest)) (hr : ¬ thinkClose <:+: reasoning)
    {whole : ParsedMessage}
    (hparse : parseGeneratedMessageEx (reasoning ++ (thinkClose ++ (content ++ block))) true = some whole) :
    whole.content ≠ trimToolSeparatorWs content := by
  obtain ⟨-, hcontent⟩ := parsed_text (reasoning_split hr (content ++ block)) rfl hparse
  rw [hcontent, List.drop_left]
  have hshort := (trim_kept content).length_le
  intro heq
  have hlen := congrArg List.length heq
  obtain ⟨p, q, hpq⟩ := hno
  have hlong : thinkClose.length = 8 := by decide
  have hsize := congrArg List.length hpq
  rw [List.length_append, List.length_append] at hsize
  split at hlen
  · next y hy =>
    -- the marker found stands behind the last end of the reasoning, and so behind the block's own
    obtain ⟨r, hlast, hle⟩ := findLastSubstr_last (by decide) (startsWith_append thinkClose q)
      (reasoning ++ (thinkClose ++ (content ++ p)))
    have hall : reasoning ++ (thinkClose ++ (content ++ p)) ++ (thinkClose ++ q) =
        reasoning ++ (thinkClose ++ (content ++ block)) := by
      rw [← hpq]
      simp only [List.append_assoc]
    rw [hall] at hlast
    have hsearch : parserSearch (reasoning ++ (thinkClose ++ (content ++ block))) true =
        some (r.drop thinkClose.length) := by
      rw [parserSearch, if_pos rfl, hlast]
      rfl
    have hy := (parsedMarker_search hsearch hy).1.length_le
    rw [List.length_drop] at hy
    rw [List.length_append] at hle
    obtain ⟨l, hl, -⟩ := marker_shape .dsml
    have hbyte : ∀ h : content.length + 2 < ((content ++ block).take ((content ++ block).length - y.length)).length,
        isSpace ((content ++ block).take ((content ++ block).length - y.length))[content.length + 2] = false := by
      intro h
      rw [List.getElem_take, List.getElem_append_right (by omega)]
      simp only [Nat.add_sub_cancel_left, hblock, hl]
      exact (by decide : isSpace 60 = false)
    have hin : content.length + 2 < ((content ++ block).take ((content ++ block).length - y.length)).length := by
      rw [List.length_take, List.length_append]
      omega
    have hkept := lt_trimmedLen hin (hbyte hin)
    rw [trimmedLen, hlen] at hkept
    omega
  · rw [List.length_append] at hlen
    omega

end

/-- **A thinking prefix before a tool block.** -/
theorem thinking_before_calls (reasoning content : Bytes) (calls : List ToolCall) (msg : ParsedMessage)
    (hr : ¬ thinkClose <:+: reasoning) (hc : ¬ thinkClose <:+: content) (hmark : findAnyToolStart content = none)
    (hne : calls ≠ []) (hparse : parseGeneratedMessageEx (appendDsmlToolCallsText [] calls) false = some msg) :
    (∃ whole, parseGeneratedMessageEx
        (reasoning ++ (thinkClose ++ (content ++ appendDsmlToolCallsText [] calls))) true = some whole ∧
      whole.reasoning = some reasoning ∧ whole.content = trimToolSeparatorWs content ∧ whole.calls = msg.calls) ↔
    (¬ thinkClose <:+: appendDsmlToolCallsText [] calls ∧ startsWith thinkOpen reasoning = false) := by
  obtain ⟨rest, hblock⟩ := block_shape calls hne
  generalize appendDsmlToolCallsText [] calls = block at hparse hblock ⊢
  constructor
  · rintro ⟨whole, hwhole, hreasoning, hcontent, -⟩
    refine ⟨fun hno => content_of_closed_block hno hblock hr hwhole hcontent, ?_⟩
    obtain ⟨hr', -⟩ := parsed_text (reasoning_split hr (content ++ block)) rfl hwhole
    rw [hreasoning] at hr'
    exact (drop_thinkStart_iff (content ++ block)).mp (Option.some.inj hr').symm
  · rintro ⟨hno, hopen⟩
    obtain ⟨whole, hwhole, hcalls, hsplit⟩ := @parse_behind_content reasoning content block rest hc hmark hno hblock msg hparse
    rw [splitReasoningContent_closed (reasoning_split hr _), (drop_thinkStart_iff _).mpr hopen, List.drop_left] at hsplit
    obtain ⟨h1, h2⟩ := Prod.mk.inj hsplit
    exact ⟨whole, hwhole, h2, h1, hcalls⟩

theorem thinking_before_calls_edit : ∃ msg, parseGeneratedMessageEx (appendDsmlToolCallsText [] [editCall]) false = some msg ∧
    ∃ whole, parseGeneratedMessageEx
        (utf8 "r" ++ (thinkClose ++ (utf8 "c\n" ++ appendDsmlToolCallsText [] [editCall]))) true = some whole ∧
      whole.reasoning = some (utf8 "r") ∧ whole.content = trimToolSeparatorWs (utf8 "c\n") ∧ whole.calls = msg.calls := by
  have hparse : (parseGeneratedMessageEx (appendDsmlToolCallsText [] [editCall]) false).isSome = true := by
    decide +kernel
  obtain ⟨msg, hmsg⟩ := Option.isSome_iff_exists.mp hparse
  have hclosed : ∀ s : Bytes, strstr thinkClose s = none → ¬ thinkClose <:+: s := fun _ h hin => strstr_of_infix hin h
  exact ⟨msg, hmsg, (thinking_before_calls (utf8 "r") (utf8 "c\n") [editCall] msg (hclosed _ (by decide +kernel))
    (hclosed _ (by decide +kernel)) (by decide +kernel) (by decide) hmsg).mpr
    ⟨hclosed _ (by decide +kernel), by decide⟩⟩

/-- A file about chat templates: an argument that holds `</think>`. -/
def templateCall : ToolCall := { name := utf8 "write", arguments := utf8 "\x7b\"text\": \"</think>\"\x7d" }

theorem closed_in_value : ∃ msg, parseGeneratedMessageEx (appendDsmlToolCallsText [] [templateCall]) false = some msg ∧
    ¬ ∃ whole, parseGeneratedMessageEx
        (utf8 "r" ++ (thinkClose ++ (utf8 "c" ++ appendDsmlToolCallsText [] [templateCall]))) true = some whole ∧
      whole.reasoning = some (utf8 "r") ∧ whole.content = trimToolSeparatorWs (utf8 "c") ∧ whole.calls = msg.calls := by
  have hparse : (parseGeneratedMessageEx (appendDsmlToolCallsText [] [templateCall]) false).map (·.calls.length) =
      some 1 := by
    decide +kernel
  have hlost : (parseGeneratedMessageEx
      (utf8 "r" ++ (thinkClose ++ (utf8 "c" ++ appendDsmlToolCallsText [] [templateCall]))) true).map
      (·.calls.length) = some 0 := by
    decide +kernel
  obtain ⟨msg, hmsg, hone⟩ := Option.map_eq_some_iff.mp hparse
  refine ⟨msg, hmsg, ?_⟩
  rintro ⟨whole, hwhole, -, -, hcalls⟩
  rw [hwhole, Option.map_some, hcalls, hone] at hlost
  cases hlost

end Ds4.Server
