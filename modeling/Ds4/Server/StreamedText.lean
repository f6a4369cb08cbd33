import Ds4.Server.LiveStream

/- What a client of an OpenAI chat reads as reasoning and as content, against the
   parser of the finished text (`parse_generated_message_ex` with closed thinking).

   PROVED here (`streamed_text`): for a text that closes its reasoning, the deltas
   put together are the parser's reasoning and content exactly when no update ends
   between a tool marker inside the reasoning and the end of the reasoning, and the
   first marker after the first `</think>` is the one the parser starts at. The
   parser searches after the last `</think>`, one spelling after the other, so the
   two markers need not be the same. `marker_cuts_reasoning` is a text whose content
   is lost.

   The requests are those with tools, buffered or not. -/
namespace Ds4.Server
open Bytes

/-! ## What the client reads -/

def reasoningOf (ds : List ChatDelta) : Bytes :=
  ds.flatMap fun
    | .reasoning text => text
    | _ => []

def contentOf (ds : List ChatDelta) : Bytes :=
  ds.flatMap fun
    | .content text => text
    | _ => []

/-- Updates as a text in thinking mode grows, and the one at its end. -/
def openaiShown (bufferTools : Bool) (raw : Bytes) (cuts : List Nat) : List ChatDelta :=
  let (st, ds) := openaiUpdates raw cuts (openaiStreamStart true bufferTools)
  ds ++ (openaiSseStreamUpdate true raw true st).2

/-- The text from the first marker after the reasoning on. -/
def shownMarker (raw : Bytes) : Option Bytes :=
  (visibleText true raw).bind fun body => (findAnyToolStart body).map Prod.snd

/-- The text from the marker the parser starts at. -/
def parsedMarker (raw : Bytes) : Option Bytes :=
  (parserSearch raw true).bind fun toolSearch => (findToolStart toolSearch).bind fun r =>
    (strstr (dsmlSyntax r.1).toolCallsStart r.2.2).map Prod.snd

/-- What the deltas add to the reasoning and to the content. -/
structure Reads (ds : List ChatDelta) (reasoning content : Bytes) : Prop where
  reasoning : reasoningOf ds = reasoning
  content : contentOf ds = content

theorem Reads.nil : Reads [] [] [] := ⟨rfl, rfl⟩

theorem Reads.append {ds ds' : List ChatDelta} {r r' c c' : Bytes} (h : Reads ds r c) (h' : Reads ds' r' c') :
    Reads (ds ++ ds') (r ++ r') (c ++ c') where
  reasoning := by rw [reasoningOf, List.flatMap_append, ← reasoningOf, ← reasoningOf, h.reasoning, h'.reasoning]
  content := by rw [contentOf, List.flatMap_append, ← contentOf, ← contentOf, h.content, h'.content]

theorem reads_reasoning (text : Bytes) : Reads (emitText .reasoning text) text [] := by
  cases text with
  | nil => exact .nil
  | cons c s => exact ⟨List.append_nil _, rfl⟩

theorem reads_content (text : Bytes) : Reads (emitText .content text) [] text := by
  cases text with
  | nil => exact .nil
  | cons c s => exact ⟨rfl, List.append_nil _⟩

theorem reads_emitArgs (index : Nat) (text : Bytes) : Reads (emitArgs index text) [] [] := by
  cases text <;> exact ⟨rfl, rfl⟩

theorem reads_startInvoke (raw : Bytes) (ts : OpenaiToolStream) :
    Reads (openaiToolStartInvoke raw ts).2 [] [] := by
  rw [openaiToolStartInvoke]
  split
  · exact .nil
  · split
    · exact .nil
    · exact ⟨rfl, rfl⟩

theorem reads_startParam (raw : Bytes) (ts : OpenaiToolStream) :
    Reads (openaiToolStartParam raw ts).2 [] [] := by
  rw [openaiToolStartParam]
  split
  · exact .nil
  · split
    · exact reads_emitArgs _ _
    · exact .nil

/-- A round of the tool stream shows no text. -/
theorem reads_toolStep (raw : Bytes) (ts : OpenaiToolStream) :
    Reads (openaiToolStreamStep raw ts).2.1 [] [] := by
  rw [openaiToolStreamStep]
  dsimp only
  split
  · split
    · exact .nil
    · split
      · exact .nil
      · split
        · exact .nil
        · split
          · exact reads_startInvoke _ _
          · exact .nil
  · split
    · exact .nil
    · split
      · dsimp only
        split
        · exact reads_emitArgs _ _
        · exact .nil
      · split
        · exact .nil
        · split
          · exact reads_startParam _ _
          · exact .nil
  · split
    · exact (reads_emitArgs _ _).append (reads_emitArgs _ _)
    · exact reads_emitArgs _ _
  · exact .nil
  · exact .nil

theorem reads_toolLoop (raw : Bytes) : ∀ (fuel : Nat) (ts : OpenaiToolStream),
    Reads (openaiToolStreamLoop raw fuel ts).2 [] []
  | 0, _ => .nil
  | fuel + 1, ts => by
    rw [openaiToolStreamLoop]
    split
    · have hstep := reads_toolStep raw ts
      generalize openaiToolStreamStep raw ts = r at hstep ⊢
      obtain ⟨ts', ds, more⟩ := r
      cases more with
      | true => exact hstep.append (reads_toolLoop raw fuel ts')
      | false => exact hstep
    · exact .nil

theorem reads_toolPhase (raw : Bytes) (st : OpenaiStream) : Reads (toolPhase raw st).2 [] [] :=
  reads_toolLoop raw _ _

/-! ## Blanks held at the end -/

theorem trim_cons (c : UInt8) (s : Bytes) : trimToolSeparatorWs (c :: s) =
    if trimToolSeparatorWs s = [] ∧ isSpace c = true then [] else c :: trimToolSeparatorWs s := by
  rw [trimToolSeparatorWs, trimToolSeparatorWs, List.rdropWhile, List.rdropWhile, List.reverse_cons,
    List.dropWhile_append]
  cases hs : s.reverse.dropWhile isSpace with
  | nil => by_cases hc : isSpace c = true <;> simp [hc]
  | cons d t => simp

/-- Trimming stops at a byte that is no blank. -/
theorem trim_append {c : UInt8} (hc : isSpace c = false) (s : Bytes) : ∀ p : Bytes,
    trimToolSeparatorWs (p ++ c :: s) = p ++ c :: trimToolSeparatorWs s
  | [] => by
    rw [List.nil_append, List.nil_append, trim_cons, if_neg]
    rw [hc]
    exact fun h => Bool.false_ne_true h.2
  | d :: p => by
    rw [List.cons_append, List.cons_append, trim_cons, trim_append hc s p, if_neg]
    exact fun h => by simp at h

/-- A part that is kept can be taken off first. -/
theorem trim_drop : ∀ {k : Nat} {s : Bytes}, k ≤ trimmedLen s →
    trimToolSeparatorWs (s.drop k) = (trimToolSeparatorWs s).drop k
  | 0, _, _ => rfl
  | k + 1, [], hk => by cases hk
  | k + 1, c :: s, hk => by
    rw [trimmedLen, trim_cons] at hk
    rw [trim_cons]
    split at hk
    · cases hk
    · next h =>
      rw [if_neg h, List.drop_succ_cons, List.drop_succ_cons]
      exact trim_drop (Nat.le_of_succ_le_succ hk)

theorem trim_kept (s : Bytes) : trimToolSeparatorWs s <+: s := List.rdropWhile_prefix _ _

/-- A byte that is no blank is kept. -/
theorem lt_trimmedLen {s : Bytes} {i : Nat} (hi : i < s.length) (hc : isSpace s[i] = false) :
    i < trimmedLen s := by
  have hsplit : s = s.take i ++ s[i] :: s.drop (i + 1) := by
    rw [← List.drop_eq_getElem_cons hi, List.take_append_drop]
  rw [trimmedLen, hsplit, trim_append hc, List.length_append, List.length_take, List.length_cons]
  omega

/-- What is shown before any marker ends in a byte that is no blank, or inside a
    character. -/
theorem textStreamSafeLimit_ends {seg : Bytes} (hnone : findAnyToolStart seg = none) :
    let n := textStreamSafeLimit seg true false
    n = 0 ∨ isSpace (seg.getD (n - 1) 0) = false ∨ (n < seg.length ∧ 0x80 ≤ seg.getD n 0) := by
  intro n
  obtain ⟨m, hm⟩ : ∃ m, n = utf8StreamSafeLen (seg.take (trimmedLen (seg.take m))) false := by
    show ∃ m, textStreamSafeLimit seg true false = _
    rw [textStreamSafeLimit, if_neg (by decide), hnone]
    dsimp only
    rw [if_neg Bool.false_ne_true]
    exact ⟨_, rfl⟩
  have hprefix : trimToolSeparatorWs (seg.take m) <+: seg := (trim_kept _).trans (List.take_prefix _ _)
  have hlast := List.rdropWhile_last_not isSpace (seg.take m)
  rw [trimmedLen, ← List.prefix_iff_eq_take.mp hprefix] at hm
  change ∀ h : trimToolSeparatorWs (seg.take m) ≠ [], ¬ isSpace ((trimToolSeparatorWs (seg.take m)).getLast h) = true
    at hlast
  generalize trimToolSeparatorWs (seg.take m) = w at hm hprefix hlast
  obtain ⟨u, rfl⟩ := hprefix
  have hin : ∀ i < w.length, (w ++ u).getD i 0 = w.getD i 0 := by
    intro i hi
    rw [List.getD_append _ _ _ _ hi]
  rw [List.length_append]
  rcases utf8StreamSafeLen_cut w false with hcut | ⟨hcut, hbyte⟩
  · rw [← hm] at hcut
    by_cases hw : w = []
    · exact .inl (by rw [hcut, hw]; rfl)
    · have hpos := List.length_pos_iff.mpr hw
      refine .inr (.inl ?_)
      rw [hin _ (by omega), hcut, List.getD_eq_getElem _ _ (by omega), ← List.getLast_eq_getElem hw,
        ← Bool.not_eq_true]
      exact hlast hw
  · rw [← hm] at hcut hbyte
    exact .inr (.inr ⟨by omega, by rw [hin _ hcut]; exact hbyte⟩)

theorem isSpace_high {c : UInt8} (h : 0x80 ≤ c) : isSpace c = false := by
  revert c
  apply forall_byte
  decide +kernel

/-- Before the first marker of the text no more is shown than what trimming keeps. -/
theorem textStreamSafeLimit_trimmed {seg unseen a y : Bytes} (hnone : findAnyToolStart seg = none)
    (hmark : findAnyToolStart (seg ++ unseen) = some (a, y)) :
    textStreamSafeLimit seg true false ≤ trimmedLen a := by
  obtain ⟨hs, style, hstyle⟩ := findAnyToolStart_sound hmark
  obtain ⟨x, hx⟩ := startsWith_iff.mp (markerStyle_some hstyle)
  obtain ⟨l, hl, h60, hlen⟩ := marker_shape style
  have hno := strstr_none hnone style
  rw [hl] at hx hno
  have hbefore := textStreamSafeLimit_before h60 hlen ⟨unseen, by rw [hs, hx]⟩ hno hnone
  have hle := textStreamSafeLimit_le hnone
  have hends := textStreamSafeLimit_ends hnone
  generalize textStreamSafeLimit seg true false = n at hbefore hle hends ⊢
  have hin : ∀ i < seg.length, seg.getD i 0 = (a ++ y).getD i 0 := by
    intro i hi
    rw [← hs, List.getD_append _ _ _ _ hi]
  have hkept : ∀ i < a.length, isSpace ((a ++ y).getD i 0) = false → i < trimmedLen a := by
    intro i hi hc
    rw [List.getD_append _ _ _ _ hi, List.getD_eq_getElem _ _ hi] at hc
    exact lt_trimmedLen hi hc
  rcases hends with hzero | hlast | ⟨hlt, hbyte⟩
  · omega
  · by_cases hpos : n = 0
    · omega
    · rw [hin _ (by omega)] at hlast
      have := hkept (n - 1) (by omega) hlast
      omega
  · rw [hin n hlt] at hbyte
    by_cases hn : n < a.length
    · exact Nat.le_of_lt (hkept n hn (isSpace_high hbyte))
    · -- the byte after the text is the marker's own
      obtain rfl : n = a.length := by omega
      rw [List.getD_append_right _ _ _ _ (Nat.le_refl _), Nat.sub_self, hx, List.cons_append,
        List.getD_cons_zero] at hbyte
      exact absurd hbyte (by decide)

/-! ## Where the stream stands -/

/-- A stream that shows no more text. -/
def Past (st : OpenaiStream) : Prop := st.mode = .tool ∨ st.mode = .suppress

theorem startTool_past (raw : Bytes) (pos : Nat) (st : OpenaiStream) : Past (startTool raw pos st) := by
  rw [startTool]
  split
  · exact .inr rfl
  · dsimp only
    split
    · exact .inl rfl
    · exact .inr rfl

theorem inMode_skip {mode : OpenaiStreamMode} {phase : OpenaiStream → OpenaiStream × List ChatDelta}
    {st : OpenaiStream} (h : st.mode ≠ mode) : inMode mode phase st = (st, []) := if_neg h

theorem Past.skips {st : OpenaiStream} (h : Past st) : st.mode ≠ .thinking ∧ st.mode ≠ .text := by
  rcases h with h | h <;> rw [h] <;> decide

/-- The tool phase closes every update. -/
theorem Past.tool {st : OpenaiStream} (h : Past st) (raw : Bytes) :
    Past (inMode .tool (toolPhase raw) st).1 ∧ Reads (inMode .tool (toolPhase raw) st).2 [] [] := by
  rw [inMode]
  split
  · refine ⟨?_, reads_toolPhase raw st⟩
    rw [toolPhase]
    dsimp only
    split
    · exact .inl rfl
    · exact .inr rfl
  · exact ⟨h, .nil⟩

theorem Past.update {st : OpenaiStream} (h : Past st) (raw : Bytes) (final : Bool) :
    Past (openaiSseStreamUpdate true raw final st).1 ∧ Reads (openaiSseStreamUpdate true raw final st).2 [] [] := by
  rw [openaiSseStreamUpdate]
  split
  · exact ⟨h, .nil⟩
  · simp only [inMode_skip h.skips.1, inMode_skip h.skips.2]
    exact h.tool raw

theorem Past.run (full : Bytes) : ∀ (cuts : List Nat) {st : OpenaiStream}, Past st →
    let r := openaiUpdates full cuts st
    Reads (r.2 ++ (openaiSseStreamUpdate true full true r.1).2) [] []
  | [], _, h => (h.update full true).2
  | n :: cuts, _, h => by
    obtain ⟨hpast, hreads⟩ := h.update (full.take n) false
    have hrest := hreads.append (hpast.run full cuts)
    rw [← List.append_assoc] at hrest
    exact hrest

/-- The stream without what the tools set. -/
def bare (st : OpenaiStream) : OpenaiStream := { st with tool := .zero, bufferTools := false }

theorem checkThinkPrefix_bare (raw : Bytes) (final : Bool) (st : OpenaiStream) :
    checkThinkPrefix raw final (bare st) = (checkThinkPrefix raw final st).map bare := by
  rw [checkThinkPrefix, checkThinkPrefix]
  show (if st.checkedThinkPrefix then _ else _) = _
  split
  · rfl
  · split
    · rfl
    · rfl

/-- How much of the reasoning the stream has gone through. -/
def OpenaiStream.reasoned (full : Bytes) (st : OpenaiStream) : Nat := st.emitPos - thinkStart full

section
variable {full t x body : Bytes}

/-- A stream in its reasoning: nothing of a marker of the reasoning is shown. -/
structure Reasoning (full t : Bytes) (st : OpenaiStream) (n : Nat) : Prop where
  inThinking : InThinking full t (bare st) n
  unmarked : ∀ a y, findAnyToolStart (full.drop (thinkStart full)) = some (a, y) → st.reasoned full ≤ a.length

/-- A stream in its text, `k` bytes of the body shown. -/
structure Speaking (full body : Bytes) (st : OpenaiStream) (n k : Nat) : Prop where
  mode : st.mode = .text
  active : st.active = true
  pos : st.emitPos ≤ n
  text : full.drop st.emitPos = body.drop k
  unmarked : ∀ a y, findAnyToolStart body = some (a, y) → k ≤ trimmedLen a

/-- All of the content, without the blanks before a marker. -/
def shownContent (body : Bytes) : Bytes :=
  match findAnyToolStart body with
  | some (a, _) => trimToolSeparatorWs a
  | none => body

theorem textPhase_speaking {raw unseen : Bytes} (hfull : full = raw ++ unseen) {final : Bool}
    (hfinal : final = true → unseen = []) {st : OpenaiStream} {k : Nat}
    (h : Speaking full body st raw.length k) : ∃ d, Reads (textPhase true raw final st).2 [] d ∧
      ((final = false ∧ ∃ k', Speaking full body (textPhase true raw final st).1 raw.length k' ∧
          body.take k ++ d = body.take k') ∨
        (Past (textPhase true raw final st).1 ∧ body.take k ++ d = shownContent body)) := by
  have hsplit : raw.drop st.emitPos ++ unseen = body.drop k := by
    rw [← h.text, hfull, List.drop_append_of_le_length h.pos]
  refine ⟨(raw.drop st.emitPos).take (textStreamSafeLimit (raw.drop st.emitPos) true final), ?_, ?_⟩
  · rw [textPhase]
    split
    · exact reads_content _
    · exact reads_content _
  · rw [textPhase, if_pos rfl]
    cases hmark : findAnyToolStart (raw.drop st.emitPos) with
    | some b =>
      obtain ⟨b, y⟩ := b
      have hfirst := findAnyToolStart_seen unseen hmark
      rw [hsplit] at hfirst
      obtain ⟨a, ha⟩ : ∃ a, findAnyToolStart body = some (a, y ++ unseen) := by
        cases hb : findAnyToolStart body with
        | none =>
          rw [findAnyToolStart_none_drop hb k] at hfirst
          cases hfirst
        | some r =>
          obtain ⟨a, z⟩ := r
          rw [findAnyToolStart_drop hb (Nat.le_trans (h.unmarked a z hb) (trim_kept a).length_le)] at hfirst
          cases hfirst
          exact ⟨a, rfl⟩
      have hk := h.unmarked a _ ha
      have hka := Nat.le_trans hk (trim_kept a).length_le
      rw [findAnyToolStart_drop ha hka] at hfirst
      cases hfirst
      refine .inr ⟨startTool_past _ _ _, ?_⟩
      have hlimit : textStreamSafeLimit (raw.drop st.emitPos) true final = trimmedLen (a.drop k) := by
        rw [textStreamSafeLimit, if_neg (by decide), hmark]
        show ((a.drop k).take (trimmedLen (a.drop k))).length = _
        rw [trimmedLen, ← List.prefix_iff_eq_take.mp (trim_kept _)]
      have hseg := (findAnyToolStart_sound hmark).1
      obtain ⟨z, hz⟩ := trim_kept a
      rw [hlimit, shownContent, ha, hseg, trimmedLen, List.take_append_of_le_length (trim_kept _).length_le,
        ← List.prefix_iff_eq_take.mp (trim_kept _), trim_drop hk, (findAnyToolStart_sound ha).1,
        List.take_append_of_le_length hka, ← hz]
      dsimp only
      rw [List.take_append_of_le_length hk, hz, List.take_append_drop]
    | none =>
      cases final with
      | true =>
        obtain rfl := hfinal rfl
        rw [List.append_nil] at hsplit
        have hnone : findAnyToolStart body = none := by
          cases hb : findAnyToolStart body with
          | none => rfl
          | some r =>
            obtain ⟨a, z⟩ := r
            have hdrop := findAnyToolStart_drop hb (Nat.le_trans (h.unmarked a z hb) (trim_kept a).length_le)
            rw [← hsplit, hmark] at hdrop
            cases hdrop
        refine .inr ⟨.inr rfl, ?_⟩
        have hlimit : textStreamSafeLimit (raw.drop st.emitPos) true true = (raw.drop st.emitPos).length := by
          rw [textStreamSafeLimit, if_neg (by decide), hmark]
          rfl
        rw [hlimit, List.take_length, hsplit, shownContent, hnone, List.take_append_drop]
      | false =>
        have hle := textStreamSafeLimit_le hmark
        rw [List.length_drop] at hle
        have hpos := h.pos
        refine .inl ⟨rfl, k + textStreamSafeLimit (raw.drop st.emitPos) true false,
          ⟨rfl, h.active, ?_, ?_, ?_⟩, ?_⟩
        · show st.emitPos + _ ≤ raw.length
          omega
        · show full.drop (st.emitPos + _) = _
          rw [← List.drop_drop, h.text, List.drop_drop]
        · intro a z hb
          have hk := h.unmarked a z hb
          have hdrop := findAnyToolStart_drop hb (Nat.le_trans hk (trim_kept a).length_le)
          rw [← hsplit] at hdrop
          have hbound := textStreamSafeLimit_trimmed hmark hdrop
          rw [trimmedLen, trim_drop hk, List.length_drop] at hbound
          change _ ≤ trimmedLen a - k at hbound
          omega
        · rw [List.take_add, ← hsplit, List.take_append_of_le_length (by rw [List.length_drop]; omega)]

theorem toolCallsStart_long (style : DsmlStyle) : thinkClose.length < (dsmlSyntax style).toolCallsStart.length := by
  cases style <;> decide

theorem findAnyToolStart_long {s b y : Bytes} (h : findAnyToolStart s = some (b, y)) :
    b.length + thinkClose.length < s.length := by
  obtain ⟨hs, style, hstyle⟩ := findAnyToolStart_sound h
  obtain ⟨z, rfl⟩ := startsWith_iff.mp (markerStyle_some hstyle)
  have hlong := toolCallsStart_long style
  rw [hs, List.length_append, List.length_append]
  omega

/-- No marker in sight from the cursor on is none in sight of the whole reasoning. -/
theorem Reasoning.marker {raw unseen : Bytes} (hfull : full = raw ++ unseen) {st : OpenaiStream} {n k : Nat}
    (h : Reasoning full t st n) (hpos : st.emitPos = thinkStart full + k) (hlow : thinkStart full ≤ raw.length)
    (hnone : findAnyToolStart (raw.drop (thinkStart full + k)) = none) :
    findAnyToolStart (raw.drop (thinkStart full)) = none := by
  cases hm : findAnyToolStart (raw.drop (thinkStart full)) with
  | none => rfl
  | some r =>
    obtain ⟨a, y⟩ := r
    have hseen := findAnyToolStart_seen unseen hm
    rw [← List.drop_append_of_le_length hlow, ← hfull] at hseen
    have hk := h.unmarked _ _ hseen
    rw [OpenaiStream.reasoned, hpos, Nat.add_sub_cancel_left] at hk
    rw [← List.drop_drop, findAnyToolStart_drop hm hk] at hnone
    cases hnone

/-- What one update does to a stream in its reasoning: it goes on, it sees the end, or
    it leaves at a marker. -/
inductive Thought (full t body raw : Bytes) (final : Bool) (sent : Bytes) (st : OpenaiStream) : Prop
  | on : final = false → findAnyToolStart (raw.drop (thinkStart full)) = none →
      Reasoning full t st raw.length → sent = t.take (st.reasoned full) → Thought full t body raw final sent st
  | closed : strstr thinkClose (raw.drop (thinkStart full)) ≠ none →
      Speaking full body st raw.length 0 → sent = t → Thought full t body raw final sent st
  | left : findAnyToolStart (raw.drop (thinkStart full)) ≠ none →
      strstr thinkClose (raw.drop (thinkStart full)) = none → Past st → sent.length < t.length →
      Thought full t body raw final sent st

theorem thinkStart_of_raw {raw unseen : Bytes} (hfull : full = raw ++ unseen)
    (h : startsWith thinkOpen raw = true) : thinkStart full = thinkOpen.length := by
  obtain ⟨z, rfl⟩ := startsWith_iff.mp h
  rw [thinkStart, hfull, List.append_assoc, startsWith_append, if_pos rfl]

/-- The opening tag is no part of the reasoning. -/
theorem Reasoning.checked {raw unseen : Bytes} (hfull : full = raw ++ unseen) {final : Bool} {st st' : OpenaiStream}
    {n : Nat} (h : Reasoning full t st n) (hst : checkThinkPrefix raw final st = some st') :
    st'.reasoned full = st.reasoned full := by
  rw [checkThinkPrefix] at hst
  split at hst
  · rw [Option.some.inj hst]
  · next hun =>
    have hzero : st.emitPos = 0 := h.inThinking.unchecked (by simpa [bare] using hun)
    split at hst
    · cases hst
    · rw [← Option.some.inj hst]
      simp only [OpenaiStream.reasoned]
      split
      · next hopen => rw [thinkStart_of_raw hfull hopen, hzero, Nat.sub_self, Nat.zero_sub]
      · rfl

theorem thinkingPhase_thought {raw unseen : Bytes} (hfull : full = raw ++ unseen) {final : Bool}
    (hfinal : final = true → unseen = []) (ht : strstr thinkClose (full.drop (thinkStart full)) = some (t, x))
    (hbody : body = x.drop thinkClose.length) {st : OpenaiStream} (h : Reasoning full t st raw.length) :
    ∃ d, Reads (thinkingPhase true raw final st).2 d [] ∧
      Thought full t body raw final (t.take (st.reasoned full) ++ d) (thinkingPhase true raw final st).1 := by
  rw [thinkingPhase]
  have hcheck := checkThinkPrefix_inThinking hfull hfinal h.inThinking
  rw [checkThinkPrefix_bare] at hcheck
  rcases hcheck with ⟨hwait, hf⟩ | ⟨st', hcheck, h', hchecked⟩
  · rw [Option.map_eq_none_iff] at hwait
    rw [hwait]
    refine ⟨[], .nil, .on hf ?_ h (List.append_nil _)⟩
    -- the text is still shorter than any marker
    have hshort : raw.length < thinkOpen.length := by
      rw [checkThinkPrefix] at hwait
      split at hwait
      · cases hwait
      · split at hwait
        · next hlt =>
          simp only [Bool.and_eq_true, decide_eq_true_eq] at hlt
          exact hlt.1.1
        · cases hwait
    cases hm : findAnyToolStart (raw.drop (thinkStart full)) with
    | none => rfl
    | some r =>
      have hlong := findAnyToolStart_long (b := r.1) (y := r.2) hm
      rw [List.length_drop] at hlong
      have : thinkOpen.length < thinkClose.length := by decide
      omega
  · obtain ⟨st', hst', rfl⟩ := Option.map_eq_some_iff.mp hcheck
    rw [hst', ← h.checked hfull hst']
    obtain ⟨k, hpos, hk⟩ := h'.checked hchecked
    have hle := h'.pos
    have hlow : thinkStart full ≤ raw.length := by omega
    have hthink : Reasoning full t st' raw.length := ⟨h', by rw [h.checked hfull hst']; exact h.unmarked⟩
    change st'.emitPos = thinkStart full + k at hpos
    change st'.emitPos ≤ raw.length at hle
    have hkt : st'.reasoned full = k := by rw [OpenaiStream.reasoned, hpos, Nat.add_sub_cancel_left]
    have hsplit : raw.drop st'.emitPos ++ unseen = (full.drop (thinkStart full)).drop k := by
      rw [← List.drop_append_of_le_length hle, ← hfull, hpos, List.drop_drop]
    have htk := strstr_drop ht hk
    rw [hkt]
    dsimp only
    rw [if_pos rfl]
    cases hc : strstr thinkClose (raw.drop st'.emitPos) with
    | some b =>
      obtain ⟨b, y⟩ := b
      have hseen := strstr_seen unseen hc
      rw [hsplit, htk] at hseen
      obtain ⟨rfl, rfl⟩ := Prod.mk.inj (Option.some.inj hseen)
      obtain ⟨hs, hstart⟩ := strstr_sound hc
      obtain ⟨z, hz⟩ := startsWith_iff.mp hstart
      have hlen := congrArg List.length hs
      rw [hz, List.length_append, List.length_append, List.length_drop] at hlen
      refine ⟨t.drop k, reads_reasoning _, .closed ?_ ⟨rfl, h'.active, ?_, ?_, fun _ _ _ => Nat.zero_le _⟩
        (List.take_append_drop _ _)⟩
      · apply strstr_of_infix
        have hin : thinkClose <:+: raw.drop st'.emitPos := ⟨t.drop k, z, by rw [hs, hz, List.append_assoc]⟩
        rw [hpos, ← List.drop_drop] at hin
        exact hin.trans (List.drop_suffix _ _).isInfix
      · show st'.emitPos + (t.drop k).length + thinkClose.length ≤ raw.length
        omega
      · show full.drop (st'.emitPos + (t.drop k).length + thinkClose.length) = _
        rw [List.drop_zero, hbody, ← List.drop_drop, ← List.drop_drop, hfull,
          List.drop_append_of_le_length hle, hs, List.append_assoc, List.drop_left]
    | none =>
      have hopen : strstr thinkClose (raw.drop (thinkStart full)) = none := by
        cases ho : strstr thinkClose (raw.drop (thinkStart full)) with
        | none => rfl
        | some r =>
          obtain ⟨t', y⟩ := r
          have hseen := strstr_seen unseen ho
          rw [← List.drop_append_of_le_length hlow, ← hfull, ht] at hseen
          cases hseen
          rw [hpos, ← List.drop_drop, strstr_drop ho hk] at hc
          cases hc
      obtain ⟨hs, hstart⟩ := strstr_sound htk
      obtain ⟨z, hz⟩ := startsWith_iff.mp hstart
      cases hm : findAnyToolStart (raw.drop st'.emitPos) with
      | some b =>
        obtain ⟨b, y⟩ := b
        refine ⟨b, reads_reasoning _, .left ?_ hopen (startTool_past _ _ _) ?_⟩
        · intro hno
          rw [hpos, ← List.drop_drop, findAnyToolStart_none_drop hno k] at hm
          cases hm
        · -- the end of the reasoning would be in sight if it began before the marker
          have hlong := findAnyToolStart_long hm
          have hcut : (raw.drop st'.emitPos).length < (t.drop k).length + thinkClose.length := by
            rw [← Nat.not_le]
            intro hfit
            apply strstr_of_infix _ hc
            have hpre : t.drop k ++ thinkClose <+: raw.drop st'.emitPos := by
              have hwhole : t.drop k ++ thinkClose <+: raw.drop st'.emitPos ++ unseen :=
                ⟨z, by rw [hsplit, hs, hz, List.append_assoc]⟩
              apply List.prefix_of_prefix_length_le hwhole (List.prefix_append _ _)
              rw [List.length_append]
              exact hfit
            exact (List.suffix_append _ _).isInfix.trans hpre.isInfix
          rw [List.length_append, List.length_take]
          simp only [List.length_drop] at hcut hlong
          omega
      | none =>
        cases final with
        | true =>
          obtain rfl := hfinal rfl
          rw [List.append_nil] at hsplit
          rw [hsplit, htk] at hc
          cases hc
        | false =>
          obtain ⟨l, hl, h60, hlen⟩ := thinkClose_shape
          have hbound := textStreamSafeLimit_before h60 hlen (t := t.drop k) (y := z)
            ⟨unseen, by rw [hsplit, hs, hz, hl]⟩ (by rw [← hl]; exact hc) hm
          have hseg := textStreamSafeLimit_le hm
          rw [if_neg Bool.false_ne_true, reasoningSafeLimit, if_pos rfl]
          dsimp only
          have hmarker : ∀ a y, findAnyToolStart (full.drop (thinkStart full)) = some (a, y) →
              k + textStreamSafeLimit (raw.drop st'.emitPos) true false ≤ a.length := by
            intro a y ha
            have hka := hthink.unmarked a y ha
            rw [hkt] at hka
            have hdrop := findAnyToolStart_drop ha hka
            rw [← hsplit] at hdrop
            have htrim := textStreamSafeLimit_trimmed hm hdrop
            have hle := (trim_kept (a.drop k)).length_le
            rw [← trimmedLen, List.length_drop] at hle
            omega
          rw [List.length_drop] at hbound hseg
          have htake : (raw.drop st'.emitPos).take (textStreamSafeLimit (raw.drop st'.emitPos) true false) =
              (t.drop k).take (textStreamSafeLimit (raw.drop st'.emitPos) true false) := by
            rw [← @List.take_append_of_le_length _ _ unseen _ (by rw [List.length_drop]; exact hseg), hsplit, hs,
              List.take_append_of_le_length (by rw [List.length_drop]; exact hbound)]
          generalize textStreamSafeLimit (raw.drop st'.emitPos) true false = limit at hbound hseg hmarker htake ⊢
          have hreasoned : OpenaiStream.reasoned full { st' with emitPos := st'.emitPos + limit } = k + limit := by
            show st'.emitPos + limit - thinkStart full = _
            omega
          refine ⟨_, reads_reasoning _, .on rfl (hthink.marker hfull hpos hlow (by rw [← hpos]; exact hm))
            ⟨⟨h'.mode, h'.active, h'.tool, h'.unbuffered, ?_, ?_, fun _ => ⟨k + limit, ?_, ?_⟩⟩, ?_⟩ ?_⟩
          · show st'.emitPos + limit ≤ raw.length
            omega
          · intro hf
            rw [show (bare st').checkedThinkPrefix = false from hf] at hchecked
            cases hchecked
          · show st'.emitPos + limit = _
            omega
          · omega
          · intro a y ha
            rw [hreasoned]
            exact hmarker a y ha
          · rw [hreasoned, List.take_add, htake]

/-- A stream that still shows text, and what the client has read of it. -/
inductive Showing (full t body raw : Bytes) (st : OpenaiStream) : Bytes → Bytes → Prop
  | thinking : Reasoning full t st raw.length → Showing full t body raw st (t.take (st.reasoned full)) []
  | speaking {k : Nat} : strstr thinkClose (raw.drop (thinkStart full)) ≠ none →
      Speaking full body st raw.length k → Showing full t body raw st t (body.take k)

/-- How an update leaves the stream. -/
inductive Shown (full t body raw : Bytes) (final : Bool) (st : OpenaiStream) (r c : Bytes) : Prop
  | on : final = false → (findAnyToolStart (raw.drop (thinkStart full)) ≠ none →
      strstr thinkClose (raw.drop (thinkStart full)) ≠ none) → Showing full t body raw st r c →
      Shown full t body raw final st r c
  | done : strstr thinkClose (raw.drop (thinkStart full)) ≠ none → Past st → r = t → c = shownContent body →
      Shown full t body raw final st r c
  | left : findAnyToolStart (raw.drop (thinkStart full)) ≠ none →
      strstr thinkClose (raw.drop (thinkStart full)) = none → Past st → r.length < t.length →
      Shown full t body raw final st r c

/-- The text and tool phases. -/
theorem textTool_shown {raw unseen : Bytes} (hfull : full = raw ++ unseen) {final : Bool}
    (hfinal : final = true → unseen = []) (hseen : strstr thinkClose (raw.drop (thinkStart full)) ≠ none)
    {st : OpenaiStream} {k : Nat} (h : Speaking full body st raw.length k) :
    let r := inMode .text (textPhase true raw final) st
    let r' := inMode .tool (toolPhase raw) r.1
    ∃ d, Reads (r.2 ++ r'.2) [] d ∧ Shown full t body raw final r'.1 t (body.take k ++ d) := by
  intro r r'
  obtain ⟨d, hreads, hnext⟩ := textPhase_speaking hfull hfinal h
  have hr : r = textPhase true raw final st := if_pos h.mode
  rw [← hr] at hreads hnext
  rcases hnext with ⟨hf, k', hspeak, hsent⟩ | ⟨hpast, hsent⟩
  · have hr' : r' = (r.1, []) := inMode_skip (by rw [hspeak.mode]; decide)
    rw [hr', List.append_nil]
    refine ⟨d, hreads, ?_⟩
    rw [hsent]
    exact .on hf (fun _ => hseen) (.speaking hseen hspeak)
  · obtain ⟨hpast', hreads'⟩ := hpast.tool raw
    have hall := hreads.append hreads'
    rw [List.append_nil, List.append_nil] at hall
    exact ⟨d, hall, .done hseen hpast' rfl hsent⟩

/-- **What one update shows.** -/
theorem openaiSseStreamUpdate_shown {raw unseen : Bytes} (hfull : full = raw ++ unseen) (final : Bool)
    (hfinal : final = true → unseen = []) (ht : strstr thinkClose (full.drop (thinkStart full)) = some (t, x))
    (hbody : body = x.drop thinkClose.length) {st : OpenaiStream} {r c : Bytes}
    (h : Showing full t body raw st r c) :
    ∃ dr dc, Reads (openaiSseStreamUpdate true raw final st).2 dr dc ∧
      Shown full t body raw final (openaiSseStreamUpdate true raw final st).1 (r ++ dr) (c ++ dc) := by
  rw [openaiSseStreamUpdate]
  cases h with
  | thinking h =>
    obtain ⟨d, hreads, hnext⟩ := thinkingPhase_thought hfull hfinal ht hbody h
    have hactive : st.active = true := h.inThinking.active
    have hrun : inMode .thinking (thinkingPhase true raw final) st = thinkingPhase true raw final st :=
      if_pos h.inThinking.mode
    rw [hactive, if_neg (by decide), hrun]
    generalize thinkingPhase true raw final st = r at hreads hnext
    obtain ⟨st1, ds1⟩ := r
    dsimp only at hreads hnext ⊢
    cases hnext with
    | on hf hnone hthink hsent =>
      have hmode : st1.mode = .thinking := hthink.inThinking.mode
      rw [inMode_skip (by rw [hmode]; decide)]
      dsimp only
      rw [inMode_skip (by rw [hmode]; decide)]
      refine ⟨d, [], ?_, ?_⟩
      · simpa only [List.append_nil] using hreads
      · rw [hsent]
        exact .on hf (fun hmark => absurd hnone hmark) (.thinking hthink)
    | closed hseen hspeak hsent =>
      obtain ⟨d', hreads', hshown⟩ := textTool_shown (t := t) hfull hfinal hseen hspeak
      have hall := hreads.append hreads'
      rw [List.append_nil, List.nil_append, ← List.append_assoc] at hall
      refine ⟨d, d', hall, ?_⟩
      rw [hsent]
      exact hshown
    | left hmark hopen hpast hsent =>
      obtain ⟨hpast', hreads'⟩ := hpast.tool raw
      rw [inMode_skip hpast.skips.2]
      have hall := hreads.append hreads'
      rw [List.append_nil] at hall
      refine ⟨d, [], ?_, .left hmark hopen hpast' hsent⟩
      rw [List.append_nil]
      exact hall
  | speaking hseen h =>
    obtain ⟨d, hreads, hshown⟩ := textTool_shown (t := t) hfull hfinal hseen h
    rw [h.active, if_neg (by decide), inMode_skip (by rw [h.mode]; decide)]
    refine ⟨[], d, hreads, ?_⟩
    rw [List.append_nil]
    exact hshown

/-- An end in sight stays in sight. -/
theorem seen_mono {n m : Nat} (hn : n ≤ m)
    (h : strstr thinkClose ((full.take n).drop (thinkStart full)) ≠ none) :
    strstr thinkClose ((full.take m).drop (thinkStart full)) ≠ none := by
  obtain ⟨r, hr⟩ := Option.ne_none_iff_exists'.mp h
  obtain ⟨u, hu⟩ : (full.take n).drop (thinkStart full) <+: (full.take m).drop (thinkStart full) := by
    rw [List.drop_take, List.drop_take]
    exact List.take_prefix_take_left (by omega)
  rw [← hu, strstr_seen u (a := r.1) (r := r.2) hr]
  exact Option.some_ne_none _

theorem Showing.mono {n m : Nat} (hn : n ≤ m) {st : OpenaiStream} {r c : Bytes}
    (h : Showing full t body (full.take n) st r c) : Showing full t body (full.take m) st r c := by
  have hle : (full.take n).length ≤ (full.take m).length := by
    rw [List.length_take, List.length_take]
    omega
  cases h with
  | thinking h =>
    obtain ⟨h1, h2, h3, h4, h5, h6, h7⟩ := h.inThinking
    exact .thinking ⟨⟨h1, h2, h3, h4, Nat.le_trans h5 hle, h6, h7⟩, h.unmarked⟩
  | speaking hseen h =>
    exact .speaking (seen_mono hn hseen) ⟨h.mode, h.active, Nat.le_trans h.pos hle, h.text, h.unmarked⟩

/-- **What a run of updates shows**, and when it loses a part of the reasoning. -/
theorem openaiUpdates_shown (ht : strstr thinkClose (full.drop (thinkStart full)) = some (t, x))
    (hbody : body = x.drop thinkClose.length) : ∀ (cuts : List Nat) {st : OpenaiStream} {n : Nat} {r c : Bytes},
    cuts.Pairwise (· ≤ ·) → (∀ m ∈ cuts, n ≤ m) → Showing full t body (full.take n) st r c →
    let u := openaiUpdates full cuts st
    ∃ dr dc, Reads (u.2 ++ (openaiSseStreamUpdate true full true u.1).2) dr dc ∧
      (((∀ m ∈ cuts, ThinkingClosed full m) ∧ r ++ dr = t ∧ c ++ dc = shownContent body) ∨
        ((∃ m ∈ cuts, ¬ ThinkingClosed full m) ∧ (r ++ dr).length < t.length)) := by
  intro cuts
  induction cuts with
  | nil =>
    intro st n r c _ _ h
    have hend := h.mono (m := max n full.length) (Nat.le_max_left _ _)
    rw [List.take_of_length_le (Nat.le_max_right _ _)] at hend
    obtain ⟨dr, dc, hreads, hshown⟩ := openaiSseStreamUpdate_shown (List.append_nil full).symm true
      (fun _ => rfl) ht hbody hend
    refine ⟨dr, dc, hreads, .inl ⟨fun _ hm => absurd hm List.not_mem_nil, ?_⟩⟩
    cases hshown with
    | on hf => cases hf
    | done _ _ hr hc => exact ⟨hr, hc⟩
    | left _ hopen =>
      rw [ht] at hopen
      cases hopen
  | cons m cuts ih =>
    intro st n r c hsorted hlow h
    rw [List.pairwise_cons] at hsorted
    rw [List.forall_mem_cons] at hlow
    obtain ⟨dr, dc, hreads, hshown⟩ := openaiSseStreamUpdate_shown (List.take_append_drop m full).symm
      false (fun hf => by cases hf) ht hbody (h.mono hlow.1)
    cases hshown with
    | on _ hclosed hshow =>
      obtain ⟨dr', dc', hreads', hrest⟩ := ih hsorted.2 hsorted.1 hshow
      have hall := hreads.append hreads'
      rw [← List.append_assoc] at hall
      refine ⟨dr ++ dr', dc ++ dc', hall, ?_⟩
      rw [← List.append_assoc, ← List.append_assoc]
      rcases hrest with ⟨hcuts, hsent⟩ | ⟨⟨k, hk, hopen⟩, hsent⟩
      · exact .inl ⟨List.forall_mem_cons.mpr ⟨hclosed, hcuts⟩, hsent⟩
      · exact .inr ⟨⟨k, List.mem_cons_of_mem _ hk, hopen⟩, hsent⟩
    | done hseen hpast hr hc =>
      have hall := hreads.append (hpast.run full cuts)
      rw [← List.append_assoc, List.append_nil, List.append_nil] at hall
      refine ⟨dr, dc, hall, .inl ⟨List.forall_mem_cons.mpr ⟨fun _ => hseen, fun k hk _ => ?_⟩, hr, hc⟩⟩
      exact seen_mono (hsorted.1 k hk) hseen
    | left hmark hopen hpast hsent =>
      have hall := hreads.append (hpast.run full cuts)
      rw [← List.append_assoc, List.append_nil, List.append_nil] at hall
      exact ⟨dr, dc, hall, .inr ⟨⟨m, List.mem_cons_self, fun hclosed => hclosed hmark hopen⟩, hsent⟩⟩

end

/-! ## The parser on the same text -/

/-- The last occurrence is not before any other. -/
theorem findLastSubstr_last {needle : Bytes} (hne : needle ≠ []) {y : Bytes} (hy : startsWith needle y = true) :
    ∀ p : Bytes, ∃ r, findLastSubstr needle (p ++ y) = some r ∧ r.length ≤ y.length
  | [] => by
    cases y with
    | nil =>
      obtain ⟨z, hz⟩ := startsWith_iff.mp hy
      exact absurd (List.append_eq_nil_iff.mp hz.symm).1 hne
    | cons c y =>
      rw [List.nil_append, findLastSubstr, if_pos hy]
      cases h : findLastSubstr needle y with
      | none => exact ⟨_, rfl, Nat.le_refl _⟩
      | some r => exact ⟨r, rfl, Nat.le_succ_of_le (findLastSubstr_suffix h).1.length_le⟩
  | c :: p => by
    obtain ⟨r, hr, hle⟩ := findLastSubstr_last hne hy p
    rw [List.cons_append, findLastSubstr, hr]
    exact ⟨r, rfl, hle⟩

theorem findAnyToolStart_here {y : Bytes} {style : DsmlStyle} (h : markerStyle y = some style) :
    findAnyToolStart y = some ([], y) := by
  cases y with
  | nil => cases h
  | cons c y => rw [findAnyToolStart_cons, h, Option.isSome_some, if_pos rfl]

theorem findToolStart_sound {s pre start : Bytes} {style : DsmlStyle}
    (h : findToolStart s = some (style, pre, start)) :
    s = pre ++ start ∧ ∃ nl y, (nl = [] ∨ nl = utf8 "\n\n") ∧ start = nl ++ y ∧ markerStyle y = some style ∧
      strstr (dsmlSyntax style).toolCallsStart start = some (nl, y) := by
  obtain ⟨c, hc, hfound⟩ := List.exists_of_findSome?_eq_some h
  obtain ⟨⟨a, r⟩, hr, he⟩ := Option.map_eq_some_iff.mp hfound
  cases he
  obtain ⟨hs, hstart⟩ := strstr_sound hr
  refine ⟨hs, ?_⟩
  obtain ⟨style', -, hstyle⟩ := List.mem_flatMap.mp hc
  obtain ⟨l, hl, h60, -⟩ := marker_shape style'
  obtain ⟨z, hz⟩ := startsWith_iff.mp hstart
  rcases List.mem_cons.mp hstyle with rfl | hstyle
  · refine ⟨utf8 "\n\n", (dsmlSyntax style').toolCallsStart ++ z, .inr rfl, ?_, markerStyle_eq (startsWith_append _ _), ?_⟩
    · rw [hz, List.append_assoc]
    · have hno : ¬ (60 :: l : Bytes) <:+: utf8 "\n\n" := by
        intro hin
        exact absurd (hin.subset List.mem_cons_self) (by decide)
      dsimp only at hz ⊢
      rw [hz, List.append_assoc, hl]
      exact strstr_append h60 z _ hno
  · obtain rfl := List.mem_singleton.mp hstyle
    refine ⟨[], start, .inl rfl, rfl, markerStyle_eq hstart, strstr_of_startsWith hstart⟩

theorem splitReasoningContent_closed {s t e : Bytes} (h : strstr thinkClose (s.drop (thinkStart s)) = some (t, e)) :
    splitReasoningContent s = (e.drop thinkClose.length, some t) := by
  have hbody : (if startsWith (utf8 "<think>") s then s.drop 7 else s) = s.drop (thinkStart s) := by
    rw [thinkStart, thinkOpen]
    split
    · rfl
    · rfl
  rw [splitReasoningContent, hbody, show utf8 "</think>" = thinkClose from rfl, h]
  rfl

section
variable {raw t x body : Bytes}

/-- The text up to the first end of the reasoning. -/
theorem raw_split (ht : strstr thinkClose (raw.drop (thinkStart raw)) = some (t, x))
    (hbody : body = x.drop thinkClose.length) : x = thinkClose ++ body ∧
      raw = (raw.take (thinkStart raw) ++ t ++ utf8 "</think") ++ 62 :: body := by
  obtain ⟨hs, hstart⟩ := strstr_sound ht
  obtain ⟨z, hz⟩ := startsWith_iff.mp hstart
  have hx : x = thinkClose ++ body := by rw [hbody, hz, List.drop_left]
  refine ⟨hx, ?_⟩
  have hclose : thinkClose = utf8 "</think" ++ [62] := by decide
  conv_lhs => rw [← List.take_append_drop (thinkStart raw) raw, hs, hx, hclose]
  simp only [List.append_assoc, List.singleton_append]

/-- Behind the end of the reasoning another text can stand. -/
theorem closed_before (ht : strstr thinkClose (raw.drop (thinkStart raw)) = some (t, x))
    (hbody : body = x.drop thinkClose.length) (z : Bytes) :
    let s := (raw.take (thinkStart raw) ++ t ++ utf8 "</think") ++ 62 :: z
    strstr thinkClose (s.drop (thinkStart s)) = some (t, thinkClose ++ z) := by
  intro s
  obtain ⟨hx, hraw⟩ := raw_split ht hbody
  have hs : s = raw.take (thinkStart raw) ++ (t ++ thinkClose ++ z) := by
    have hclose : thinkClose = utf8 "</think" ++ [62] := by decide
    show (_ ++ _ ++ _) ++ _ = _
    rw [hclose]
    simp only [List.append_assoc, List.singleton_append]
  have hlow : (raw.take (thinkStart raw)).length = thinkStart raw := by
    have hne : raw.drop (thinkStart raw) ≠ [] := by
      rw [(strstr_sound ht).1, hx]
      intro hnil
      exact absurd (List.append_eq_nil_iff.mp (List.append_eq_nil_iff.mp hnil).2).1 (by decide)
    have := List.length_pos_iff.mpr hne
    rw [List.length_drop] at this
    rw [List.length_take]
    omega
  have hsame : thinkStart s = thinkStart raw := by
    have hlong : ∀ u, startsWith thinkOpen ((raw.take (thinkStart raw) ++ t ++ utf8 "</think") ++ u) =
        startsWith thinkOpen (raw.take (thinkStart raw) ++ t ++ utf8 "</think") := by
      intro u
      apply startsWith_append_long
      have : thinkOpen.length = (utf8 "</think").length := by decide
      rw [List.length_append, this]
      omega
    rw [thinkStart, thinkStart, show s = _ ++ _ from rfl, hlong]
    conv_rhs => rw [hraw, hlong]
  rw [hsame, hs, List.drop_append_of_le_length (by omega), List.drop_of_length_le (by omega), List.nil_append]
  have hfirst : strstr thinkClose (t ++ thinkClose) = some (t, thinkClose) := by
    cases hc : strstr thinkClose (t ++ thinkClose) with
    | none => exact absurd hc ( strstr_of_infix (List.suffix_append _ _).isInfix)
    | some r =>
      obtain ⟨t', r⟩ := r
      have hseen := strstr_seen body hc
      rw [List.append_assoc, ← hx, ← (strstr_sound ht).1, ht] at hseen
      cases hseen
      rw [List.append_cancel_left (strstr_sound hc).1.symm]
  exact strstr_seen z hfirst

/-- The marker the parser starts at stands in the text shown. -/
theorem parserSearch_suffix (ht : strstr thinkClose (raw.drop (thinkStart raw)) = some (t, x))
    (hbody : body = x.drop thinkClose.length) :
    ∃ toolSearch, parserSearch raw true = some toolSearch ∧ toolSearch <:+ body := by
  obtain ⟨hx, -⟩ := raw_split ht hbody
  obtain ⟨hs, hstart⟩ := strstr_sound ht
  have hraw : raw = raw.take (thinkStart raw) ++ t ++ x := by
    rw [List.append_assoc, ← hs, List.take_append_drop]
  obtain ⟨r, hr, hle⟩ := findLastSubstr_last (by decide) hstart (raw.take (thinkStart raw) ++ t)
  rw [← hraw] at hr
  refine ⟨r.drop thinkClose.length, by rw [parserSearch, if_pos rfl, hr]; rfl, ?_⟩
  have hsearch : r.drop thinkClose.length <:+ raw := (List.drop_suffix _ _).trans (findLastSubstr_suffix hr).1
  have hshown : body <:+ raw := by
    rw [hraw, hx]
    exact (List.suffix_append _ _).trans (List.suffix_append _ _)
  apply List.suffix_of_suffix_length_le hsearch hshown
  rw [hx, List.length_append] at hle
  rw [List.length_drop]
  omega

theorem parsedMarker_eq {toolSearch : Bytes} (hsearch : parserSearch raw true = some toolSearch) :
    parsedMarker raw = (findToolStart toolSearch).bind fun r =>
      (strstr (dsmlSyntax r.1).toolCallsStart r.2.2).map Prod.snd := by
  rw [parsedMarker, hsearch]
  rfl

theorem parsedMarker_search {toolSearch y : Bytes} (hsearch : parserSearch raw true = some toolSearch)
    (h : parsedMarker raw = some y) : y <:+ toolSearch ∧ ∃ style, markerStyle y = some style := by
  rw [parsedMarker_eq hsearch] at h
  obtain ⟨⟨style, pre, start⟩, hstart, hy⟩ := Option.bind_eq_some_iff.mp h
  obtain ⟨hs, nl, y', -, hnl, hstyle, hmark⟩ := findToolStart_sound hstart
  rw [hmark] at hy
  cases hy
  refine ⟨?_, style, hstyle⟩
  rw [hs, hnl]
  exact (List.suffix_append _ _).trans (List.suffix_append _ _)

theorem parsedMarker_suffix (ht : strstr thinkClose (raw.drop (thinkStart raw)) = some (t, x))
    (hbody : body = x.drop thinkClose.length) {y : Bytes} (h : parsedMarker raw = some y) :
    y <:+ body ∧ ∃ style, markerStyle y = some style := by
  obtain ⟨toolSearch, hsearch, hsuffix⟩ := parserSearch_suffix ht hbody
  obtain ⟨hy, hstyle⟩ := parsedMarker_search hsearch h
  exact ⟨hy.trans hsuffix, hstyle⟩

theorem trim_blank (s : Bytes) : trimToolSeparatorWs (s ++ utf8 "\n\n") = trimToolSeparatorWs s := by
  have hnl : utf8 "\n\n" = [10] ++ [10] := by decide
  rw [trimToolSeparatorWs, trimToolSeparatorWs, hnl, ← List.append_assoc,
    List.rdropWhile_concat_pos _ _ _ (by decide), List.rdropWhile_concat_pos _ _ _ (by decide)]

/-- **What the parser returns**: the reasoning up to the first end of it, and the
    content up to the marker it starts at. -/
theorem parsed_text (ht : strstr thinkClose (raw.drop (thinkStart raw)) = some (t, x))
    (hbody : body = x.drop thinkClose.length) {msg : ParsedMessage}
    (hparse : parseGeneratedMessageEx raw true = some msg) : msg.reasoning = some t ∧
      msg.content = match parsedMarker raw with
        | some y => trimToolSeparatorWs (body.take (body.length - y.length))
        | none => body := by
  obtain ⟨toolSearch, hsearch, hsuffix⟩ := parserSearch_suffix ht hbody
  obtain ⟨hx, hraw⟩ := raw_split ht hbody
  rw [parsedMarker_eq hsearch]
  unfold parseGeneratedMessageEx at hparse
  rw [show utf8 "</think>" = thinkClose from rfl, if_pos rfl] at hparse
  rw [parserSearch, if_pos rfl] at hsearch
  have hsearch' : ((findLastSubstr thinkClose raw).map fun r => r.drop 8) = some toolSearch := hsearch
  rw [hsearch'] at hparse
  cases hstart : findToolStart toolSearch with
  | none =>
    simp only [hstart, splitReasoningContent_closed ht, Option.some.injEq] at hparse
    rw [← hparse]
    exact ⟨rfl, hbody.symm⟩
  | some r =>
    obtain ⟨style, pre, start⟩ := r
    obtain ⟨hs, nl, y, hblank, hnl, -, hmark⟩ := findToolStart_sound hstart
    simp only [hstart, hmark, Option.bind_eq_bind, Option.bind_some, Option.bind_eq_some_iff] at hparse
    obtain ⟨⟨calls, rest⟩, -, he⟩ := hparse
    obtain ⟨v, hv⟩ := hsuffix
    -- the text before the marker, with the blank lines before it
    have hbefore : body = v ++ pre ++ nl ++ y := by rw [← hv, hs, hnl]; simp only [List.append_assoc]
    generalize hfront : raw.take (thinkStart raw) ++ t ++ utf8 "</think" = front at hraw
    have hhead : raw.take (raw.length - start.length) = front ++ 62 :: (v ++ pre) := by
      have hall : raw = front ++ 62 :: (v ++ pre) ++ start := by
        rw [hraw, hbefore, hnl]
        simp only [List.append_assoc, List.cons_append]
      have hlen : raw.length - start.length = (front ++ 62 :: (v ++ pre)).length := by
        rw [hall, List.length_append, Nat.add_sub_cancel]
      rw [hlen]
      conv_lhs => rw [hall]
      exact List.take_left
    rw [hhead, trim_append (by decide)] at he
    have hclosed := closed_before ht hbody (trimToolSeparatorWs (v ++ pre))
    rw [hfront] at hclosed
    rw [splitReasoningContent_closed hclosed] at he
    obtain rfl := Option.some.inj he
    refine ⟨rfl, ?_⟩
    have htrim : trimToolSeparatorWs (v ++ pre ++ nl) = trimToolSeparatorWs (v ++ pre) := by
      rcases hblank with rfl | rfl
      · rw [List.append_nil]
      · exact trim_blank _
    rw [Option.bind_some, hmark]
    show (thinkClose ++ trimToolSeparatorWs (v ++ pre)).drop thinkClose.length =
      trimToolSeparatorWs (body.take (body.length - y.length))
    rw [List.drop_left, ← htrim, hbefore, List.length_append, Nat.add_sub_cancel, List.take_left]

/-- Both see the same content only where they start at the same marker. -/
theorem shownContent_eq_iff (ht : strstr thinkClose (raw.drop (thinkStart raw)) = some (t, x))
    (hbody : body = x.drop thinkClose.length) :
    (shownContent body = match parsedMarker raw with
      | some y => trimToolSeparatorWs (body.take (body.length - y.length))
      | none => body) ↔ (findAnyToolStart body).map Prod.snd = parsedMarker raw := by
  cases hfirst : findAnyToolStart body with
  | none =>
    cases hparsed : parsedMarker raw with
    | none => simp [shownContent, hfirst]
    | some y =>
      obtain ⟨⟨v, hv⟩, style, hstyle⟩ := parsedMarker_suffix ht hbody hparsed
      have hdrop := findAnyToolStart_none_drop hfirst v.length
      rw [← hv, List.drop_left] at hdrop
      have hno := strstr_none hdrop style
      rw [strstr_of_startsWith (markerStyle_some hstyle)] at hno
      cases hno
  | some r =>
    obtain ⟨a, m⟩ := r
    obtain ⟨hs, style, hstyle⟩ := findAnyToolStart_sound hfirst
    have hcontent : shownContent body = trimToolSeparatorWs a := by rw [shownContent, hfirst]
    have hm : 0 < m.length := by
      have h := findAnyToolStart_long hfirst
      rw [hs, List.length_append] at h
      omega
    have hle := (trim_kept a).length_le
    rw [hcontent, Option.map_some]
    cases hparsed : parsedMarker raw with
    | none =>
      refine ⟨fun h => ?_, fun h => by cases h⟩
      have hlen := congrArg List.length h
      dsimp only at hlen
      rw [hs, List.length_append] at hlen
      omega
    | some y =>
      obtain ⟨⟨v, hv⟩, style', hstyle'⟩ := parsedMarker_suffix ht hbody hparsed
      have htake : body.take (body.length - y.length) = v := by
        rw [← hv, List.length_append, Nat.add_sub_cancel, List.take_left]
      dsimp only
      rw [htake]
      constructor
      · intro h
        -- the parser's marker is not before the first one, and not after it
        have hnot : a.length ≤ v.length := by
          rw [← Nat.not_lt]
          intro hlt
          have hdrop := findAnyToolStart_drop hfirst (Nat.le_of_lt hlt)
          rw [← hv, List.drop_left, findAnyToolStart_here hstyle'] at hdrop
          have hnil := congrArg (fun r => r.1.length) (Option.some.inj hdrop)
          simp only [List.length_nil, List.length_drop] at hnil
          omega
        have hend : ¬ a.length < v.length := by
          intro hlt
          have hbyte : v[a.length] = 60 := by
            obtain ⟨l, hl, -⟩ := marker_shape style
            obtain ⟨z, hz⟩ := startsWith_iff.mp (markerStyle_some hstyle)
            have hget : (v ++ y)[a.length]? = some 60 := by
              rw [hv, hs, List.getElem?_append_right (Nat.le_refl _), Nat.sub_self, hz, hl]
              rfl
            rw [List.getElem?_append_left hlt, List.getElem?_eq_getElem hlt] at hget
            exact Option.some.inj hget
          have hkept := lt_trimmedLen hlt (by rw [hbyte]; decide)
          rw [trimmedLen, ← h] at hkept
          omega
        have hlen : a.length = v.length := by omega
        rw [(List.append_inj (hs.symm.trans hv.symm) hlen).2]
      · intro h
        obtain rfl := Option.some.inj h
        rw [List.append_cancel_right (hs.symm.trans hv.symm)]

end

/-- The opening tag holds no beginning of the closing one. -/
theorem strstr_thinkOpen {w : Bytes} (h : strstr thinkClose w = none) : strstr thinkClose (thinkOpen ++ w) = none := by
  have hopen : thinkOpen = [60, 116, 104, 105, 110, 107, 62] := by decide
  have hclose : thinkClose = [60, 47, 116, 104, 105, 110, 107, 62] := by decide
  rw [hclose] at h ⊢
  simp [hopen, strstr, h]

theorem reasoning_of_close {raw : Bytes} (h : thinkClose <:+: raw) :
    ∃ t x, strstr thinkClose (raw.drop (thinkStart raw)) = some (t, x) := by
  cases hc : strstr thinkClose (raw.drop (thinkStart raw)) with
  | some r => exact ⟨r.1, r.2, rfl⟩
  | none =>
    exfalso
    apply strstr_of_infix h
    rw [thinkStart] at hc
    split at hc
    · next hopen =>
      obtain ⟨w, rfl⟩ := startsWith_iff.mp hopen
      rw [List.drop_left] at hc
      exact strstr_thinkOpen hc
    · exact hc

/-- **Streamed text and parsed text.** -/
theorem streamed_text (bufferTools : Bool) (raw : Bytes) (cuts : List Nat) (msg : ParsedMessage)
    (hclose : thinkClose <:+: raw) (hcuts : cuts.Pairwise (· ≤ ·))
    (hparse : parseGeneratedMessageEx raw true = some msg) :
    (some (reasoningOf (openaiShown bufferTools raw cuts)) = msg.reasoning ∧
        contentOf (openaiShown bufferTools raw cuts) = msg.content) ↔
      (∀ n ∈ cuts, ThinkingClosed raw n) ∧ shownMarker raw = parsedMarker raw := by
  obtain ⟨t, x, ht⟩ := reasoning_of_close hclose
  obtain ⟨hreasoning, hcontent⟩ := parsed_text ht rfl hparse
  have hbody : visibleText true raw = some (x.drop thinkClose.length) := by
    rw [visibleText, if_pos rfl, ht]
    rfl
  have hstart : Showing raw t (x.drop thinkClose.length) (raw.take 0) (openaiStreamStart true bufferTools) [] [] := by
    have h := @Showing.thinking raw t (x.drop thinkClose.length) (raw.take 0) (openaiStreamStart true bufferTools)
      ⟨⟨rfl, rfl, rfl, rfl, Nat.zero_le _, fun _ => rfl, fun h => by cases h⟩, fun _ _ _ => by
        rw [OpenaiStream.reasoned, show (openaiStreamStart true bufferTools).emitPos = 0 from rfl, Nat.zero_sub]
        exact Nat.zero_le _⟩
    rw [OpenaiStream.reasoned, show (openaiStreamStart true bufferTools).emitPos = 0 from rfl, Nat.zero_sub] at h
    exact h
  obtain ⟨dr, dc, hreads, hsent⟩ := openaiUpdates_shown ht rfl cuts hcuts (fun _ _ => Nat.zero_le _) hstart
  have hshown : Reads (openaiShown bufferTools raw cuts) dr dc := hreads
  have hmarkers := shownContent_eq_iff ht rfl
  rw [hshown.reasoning, hshown.content, hreasoning, hcontent, shownMarker, hbody, Option.bind_some, ← hmarkers]
  rw [List.nil_append, List.nil_append] at hsent
  rcases hsent with ⟨hclosed, hr, hc⟩ | ⟨⟨n, hn, hopen⟩, hlost⟩
  · rw [hr, hc]
    exact ⟨fun h => ⟨hclosed, h.2⟩, fun h => ⟨rfl, h.2⟩⟩
  · refine ⟨fun h => ?_, fun h => absurd (h.1 n hn) hopen⟩
    rw [Option.some.inj h.1] at hlost
    exact absurd hlost (Nat.lt_irrefl _)

/-- A call after closed reasoning, with updates anywhere in it. -/
theorem streamed_text_listed : ∃ msg, parseGeneratedMessageEx listedText true = some msg ∧
    some (reasoningOf (openaiShown false listedText [9, 28, 85, 95])) = msg.reasoning ∧
      contentOf (openaiShown false listedText [9, 28, 85, 95]) = msg.content := by
  have hparse : (parseGeneratedMessageEx listedText true).isSome = true := by decide +kernel
  obtain ⟨msg, hmsg⟩ := Option.isSome_iff_exists.mp hparse
  have hclose : thinkClose <:+: listedText := ⟨utf8 "<think>x", utf8 "<tool_calls>" ++ listedBlock, by decide +kernel⟩
  refine ⟨msg, hmsg, (streamed_text false listedText [9, 28, 85, 95] msg hclose (by decide) hmsg).mpr ⟨?_, ?_⟩⟩
  · decide +kernel
  · decide +kernel

/-- A marker quoted in the reasoning, with an update between it and the end of the
    reasoning: the rest of the reasoning and the content are not shown. -/
def quotedMarker : Bytes := utf8 "a<tool_calls>b</think>c"

theorem marker_cuts_reasoning : thinkClose <:+: quotedMarker ∧ [13].Pairwise (· ≤ ·) ∧
    ∃ msg, parseGeneratedMessageEx quotedMarker true = some msg ∧
      ¬ (some (reasoningOf (openaiShown false quotedMarker [13])) = msg.reasoning ∧
        contentOf (openaiShown false quotedMarker [13]) = msg.content) := by
  refine ⟨⟨utf8 "a<tool_calls>b", utf8 "c", by decide +kernel⟩, by decide, ?_⟩
  have hparse : (parseGeneratedMessageEx quotedMarker true).map (·.content) = some (utf8 "c") := by decide +kernel
  obtain ⟨msg, hmsg, hcontent⟩ := Option.map_eq_some_iff.mp hparse
  refine ⟨msg, hmsg, fun h => ?_⟩
  have hlost : contentOf (openaiShown false quotedMarker [13]) = [] := by decide +kernel
  rw [hcontent, hlost] at h
  exact absurd h.2 (by decide)

end Ds4.Server
