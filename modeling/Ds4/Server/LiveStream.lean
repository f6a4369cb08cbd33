import Mathlib.Data.Finset.Card
import Mathlib.Data.Finset.Range
import Ds4.Server.ToolStream

/- The live stream of an OpenAI chat (`openai_sse_stream_update`,
   `openai_sse_finish_live` of ds4_server.c) against the parser of the finished
   text.

   PROVED here (`openaiStream_accumulates`): where the stream can follow the text
   (`StreamsAlike`), a client that puts the fragments of each call together has the
   parser's calls at the end, however the text was cut into updates. The stream
   does not follow every text the parser accepts: `undeclared_stalls` is one it
   gives up on halfway. ASSUMED: the connection takes every write.

   The requests are those with tools and with the tool stream not buffered.
   `sent_reasoning` and `sent_content` are left out: nothing reads them. -/
namespace Ds4.Server
open Bytes

/-! ## The stream -/

inductive OpenaiStreamMode
  | thinking
  | text
  | tool
  | suppress
  deriving DecidableEq

structure OpenaiStream where
  mode : OpenaiStreamMode
  emitPos : Nat
  active : Bool
  bufferTools : Bool
  checkedThinkPrefix : Bool
  tool : OpenaiToolStream

def openaiStreamStart (thinking bufferTools : Bool) : OpenaiStream where
  mode := if thinking then .thinking else .text
  emitPos := 0
  active := true
  bufferTools := bufferTools
  checkedThinkPrefix := false
  tool := .zero

def thinkOpen : Bytes := utf8 "<think>"

def thinkClose : Bytes := utf8 "</think>"

/-- From a marker on the text goes to the tool stream, or is kept for the end. -/
def startTool (raw : Bytes) (pos : Nat) (st : OpenaiStream) : OpenaiStream :=
  if st.bufferTools then { st with emitPos := pos, mode := .suppress }
  else
    let tool := openaiToolStreamInit raw pos
    { st with emitPos := pos, tool := tool, mode := if tool.active then .tool else .suppress }

/-- `<think>` at the start of the text is not shown; `none` waits for it. -/
def checkThinkPrefix (raw : Bytes) (final : Bool) (st : OpenaiStream) : Option OpenaiStream :=
  if st.checkedThinkPrefix then some st
  else if raw.length < thinkOpen.length && startsWith raw thinkOpen && !final then none
  else some { st with
    emitPos := if startsWith thinkOpen raw then thinkOpen.length else st.emitPos
    checkedThinkPrefix := true }

/-- How much of the reasoning not shown yet can be shown when no marker is in sight. -/
def reasoningSafeLimit (seg : Bytes) (hasTools : Bool) (hold : Nat) : Nat :=
  if hasTools then textStreamSafeLimit seg true false
  else utf8StreamSafeLen (seg.take (seg.length - hold)) false

def emitText (delta : Bytes → ChatDelta) (text : Bytes) : List ChatDelta :=
  if text = [] then [] else [delta text]

def thinkingPhase (hasTools : Bool) (raw : Bytes) (final : Bool) (st : OpenaiStream) :
    OpenaiStream × List ChatDelta :=
  match checkThinkPrefix raw final st with
  | none => (st, [])
  | some st =>
    let seg := raw.drop st.emitPos
    match strstr thinkClose seg, if hasTools then findAnyToolStart seg else none with
    | some (reasoning, _), _ =>
      ({ st with emitPos := st.emitPos + reasoning.length + thinkClose.length, mode := .text },
        emitText .reasoning reasoning)
    | none, some (reasoning, _) =>
      (startTool raw (st.emitPos + reasoning.length) st, emitText .reasoning reasoning)
    | none, none =>
      if final then ({ st with emitPos := raw.length, mode := .suppress }, emitText .reasoning seg)
      else
        let limit := reasoningSafeLimit seg hasTools (thinkClose.length - 1)
        ({ st with emitPos := st.emitPos + limit }, emitText .reasoning (seg.take limit))

def textPhase (hasTools : Bool) (raw : Bytes) (final : Bool) (st : OpenaiStream) :
    OpenaiStream × List ChatDelta :=
  let seg := raw.drop st.emitPos
  let limit := textStreamSafeLimit seg hasTools final
  let ds := emitText .content (seg.take limit)
  match if hasTools then findAnyToolStart seg else none with
  | some (content, _) => (startTool raw (st.emitPos + content.length) st, ds)
  | none => ({ st with emitPos := st.emitPos + limit, mode := if final then .suppress else .text }, ds)

def toolPhase (raw : Bytes) (st : OpenaiStream) : OpenaiStream × List ChatDelta :=
  let (tool, ds) := openaiToolStreamUpdate raw st.tool
  ({ st with tool := tool, mode := if tool.active then .tool else .suppress }, ds)

/-- A phase that runs in one mode. -/
def inMode (mode : OpenaiStreamMode) (phase : OpenaiStream → OpenaiStream × List ChatDelta)
    (st : OpenaiStream) : OpenaiStream × List ChatDelta :=
  if st.mode = mode then phase st else (st, [])

/-- The three modes run in turn; an early `return true` of the source leaves a mode
    that none of the later ones runs in. -/
def openaiSseStreamUpdate (hasTools : Bool) (raw : Bytes) (final : Bool) (st : OpenaiStream) :
    OpenaiStream × List ChatDelta :=
  if !st.active then (st, [])
  else
    let (st, ds1) := inMode .thinking (thinkingPhase hasTools raw final) st
    let (st, ds2) := inMode .text (textPhase hasTools raw final) st
    let (st, ds3) := inMode .tool (toolPhase raw) st
    (st, ds1 ++ ds2 ++ ds3)

/-- The finished calls, each in one piece. -/
def appendToolCallDeltas (calls : List ToolCall) : List ChatDelta :=
  toolDeltas 0 (calls.map fun tc => (tc.name, appendJsonObjectOrEmpty tc.arguments))

def openaiSseFinishLive (hasTools : Bool) (raw : Bytes) (calls : List ToolCall) (st : OpenaiStream) :
    List ChatDelta :=
  let (st, ds) := openaiSseStreamUpdate hasTools raw true st
  ds ++ if calls ≠ [] ∧ !st.tool.emittedAny then appendToolCallDeltas calls else []

/-- Updates as the text grows: each sees its first `n` bytes. -/
def openaiUpdates (raw : Bytes) : List Nat → OpenaiStream → OpenaiStream × List ChatDelta
  | [], st => (st, [])
  | n :: cuts, st =>
    let (st, ds) := openaiSseStreamUpdate true (raw.take n) false st
    let (st, ds') := openaiUpdates raw cuts st
    (st, ds ++ ds')

/-- Everything sent for a text, from the start of the stream to its end. -/
def openaiStreamed (thinking : Bool) (raw : Bytes) (cuts : List Nat) (calls : List ToolCall) :
    List ChatDelta :=
  let (st, ds) := openaiUpdates raw cuts (openaiStreamStart thinking false)
  ds ++ openaiSseFinishLive true raw calls st

/-- The text is a whole object with the members of the call's arguments. -/
def Delivers (text : Bytes) (tc : ToolCall) : Prop :=
  CompleteObject text ∧ ∃ members, tc.members = some members ∧ jsonArgsParse text = some members

/-- What the client has put together is these calls. -/
structure AccumulatesTo (ds : List ChatDelta) (calls : List ToolCall) : Prop where
  count : (toolIndexes ds).dedup.length = calls.length
  name : ∀ i (h : i < calls.length), namesAt i ds = [calls[i].name]
  args : ∀ i (h : i < calls.length), Delivers (argsAt i ds) calls[i]

/-! ## Markers in sight -/

theorem markerStyle_eq {style : DsmlStyle} {y : Bytes}
    (h : startsWith (dsmlSyntax style).toolCallsStart y = true) : markerStyle y = some style := by
  obtain ⟨x, rfl⟩ := startsWith_iff.mp h
  cases style <;> rfl

theorem markerStyle_some {style : DsmlStyle} {y : Bytes} (h : markerStyle y = some style) :
    startsWith (dsmlSyntax style).toolCallsStart y = true :=
  List.find?_some (p := fun style => startsWith (dsmlSyntax style).toolCallsStart y) h

theorem markerStyle_none {y : Bytes} (h : markerStyle y = none) (style : DsmlStyle) :
    startsWith (dsmlSyntax style).toolCallsStart y = false := by
  rw [Bool.eq_false_iff]
  intro hs
  rw [markerStyle_eq hs] at h
  cases h

/-- The first marker of any spelling, byte by byte. -/
theorem findAnyToolStart_cons (c : UInt8) (s : Bytes) : findAnyToolStart (c :: s) =
    if (markerStyle (c :: s)).isSome then some ([], c :: s)
    else (findAnyToolStart s).map fun r => (c :: r.1, r.2) := by
  have hmap : ∀ x y : Option (Bytes × Bytes), earlier (x.map fun r => (c :: r.1, r.2))
      (y.map fun r => (c :: r.1, r.2)) = (earlier x y).map fun r => (c :: r.1, r.2) := by
    intro x y
    cases x with
    | none => rfl
    | some x =>
      cases y with
      | none => rfl
      | some y =>
        simp only [earlier, Option.map_some, List.length_cons, Nat.add_lt_add_iff_right]
        split <;> rfl
  have hleft : ∀ r y, earlier (some ([], r)) y = some (([] : Bytes), r) := by
    intro r y
    cases y <;> rfl
  have hright : ∀ r (x : Option (Bytes × Bytes)), earlier (x.map fun r => (c :: r.1, r.2)) (some ([], r)) =
      some (([] : Bytes), r) := by
    intro r x
    cases x with
    | none => rfl
    | some x => simp [earlier]
  cases h : markerStyle (c :: s) with
  | none =>
    have hno := markerStyle_none h
    rw [findAnyToolStart, strstr, strstr, strstr, hno, hno, hno, if_neg Bool.false_ne_true,
      if_neg Bool.false_ne_true, if_neg Bool.false_ne_true, hmap, hmap]
    rfl
  | some style =>
    have hs := markerStyle_some h
    have hother : ∀ other, other ≠ style → startsWith (dsmlSyntax other).toolCallsStart (c :: s) = false := by
      intro other hne
      rw [Bool.eq_false_iff]
      intro ho
      rw [markerStyle_eq ho] at h
      exact hne (Option.some.inj h)
    rw [findAnyToolStart, strstr, strstr, strstr]
    cases style with
    | dsml =>
      rw [if_pos hs, hleft, hleft]
      rfl
    | short =>
      rw [if_pos hs, hother .dsml (by decide), if_neg Bool.false_ne_true, hright, hleft]
      rfl
    | plain =>
      rw [if_pos hs, hother .dsml (by decide), hother .short (by decide), if_neg Bool.false_ne_true,
        if_neg Bool.false_ne_true, hmap, hright]
      rfl

theorem findAnyToolStart_nil : findAnyToolStart [] = none := by decide

theorem findAnyToolStart_sound : ∀ {s b y : Bytes}, findAnyToolStart s = some (b, y) →
    s = b ++ y ∧ ∃ style, markerStyle y = some style
  | [], _, _, h => by
    rw [findAnyToolStart_nil] at h
    cases h
  | c :: s, b, y, h => by
    rw [findAnyToolStart_cons] at h
    split at h
    · next hm =>
      cases h
      exact ⟨rfl, Option.isSome_iff_exists.mp hm⟩
    · obtain ⟨⟨b', y'⟩, hr, he⟩ := Option.map_eq_some_iff.mp h
      cases he
      obtain ⟨hs, hm⟩ := findAnyToolStart_sound hr
      exact ⟨by rw [hs]; rfl, hm⟩

theorem marker_shape (style : DsmlStyle) : ∃ l, (dsmlSyntax style).toolCallsStart = 60 :: l ∧
    (60 : UInt8) ∉ l ∧ l.length < 80 :=
  ⟨(dsmlSyntax style).toolCallsStart.tail, by cases style <;> decide, by cases style <;> decide,
    by cases style <;> decide⟩

/-- A marker in sight stays the first one as more comes in sight. -/
theorem findAnyToolStart_seen (u : Bytes) : ∀ {s b y : Bytes}, findAnyToolStart s = some (b, y) →
    findAnyToolStart (s ++ u) = some (b, y ++ u)
  | [], _, _, h => by
    rw [findAnyToolStart_nil] at h
    cases h
  | c :: s, b, y, h => by
    rw [findAnyToolStart_cons] at h
    rw [List.cons_append, findAnyToolStart_cons]
    split at h
    · next hm =>
      obtain ⟨style, hstyle⟩ := Option.isSome_iff_exists.mp hm
      obtain ⟨x, hx⟩ := startsWith_iff.mp (markerStyle_some hstyle)
      have hseen : markerStyle (c :: (s ++ u)) = some style := by
        apply markerStyle_eq
        rw [← List.cons_append, hx, List.append_assoc]
        exact startsWith_append _ _
      cases h
      rw [hseen]
      rfl
    · next hm =>
      obtain ⟨⟨b', y'⟩, hr, he⟩ := Option.map_eq_some_iff.mp h
      cases he
      have hno : ¬ (markerStyle (c :: (s ++ u))).isSome = true := by
        intro hsome
        -- a marker here that is not in sight whole has no `<` after its first byte
        obtain ⟨style, hstyle⟩ := Option.isSome_iff_exists.mp hsome
        obtain ⟨l, hl, h60, -⟩ := marker_shape style
        obtain ⟨hs, style', hy⟩ := findAnyToolStart_sound hr
        obtain ⟨l', hl', -⟩ := marker_shape style'
        have hstart := markerStyle_some hstyle
        rw [← List.cons_append] at hstart
        rcases startsWith_seen hstart with hfull | ⟨hpart, -⟩
        · exact hm (by rw [markerStyle_eq hfull]; rfl)
        · rw [partialOf, hl, Bool.and_eq_true, startsWith_cons_cons, Bool.and_eq_true] at hpart
          obtain ⟨x, hx⟩ := startsWith_iff.mp hpart.2.2
          obtain ⟨z, hz⟩ := startsWith_iff.mp (markerStyle_some hy)
          apply h60
          rw [hx, hs, hz, hl']
          simp
      rw [if_neg hno, findAnyToolStart_seen u hr]
      rfl

theorem findAnyToolStart_drop : ∀ {k : Nat} {s b y : Bytes}, findAnyToolStart s = some (b, y) →
    k ≤ b.length → findAnyToolStart (s.drop k) = some (b.drop k, y) := by
  intro k
  induction k with
  | zero => exact fun h _ => h
  | succ k ih =>
    intro s b y h hk
    cases s with
    | nil =>
      rw [findAnyToolStart_nil] at h
      cases h
    | cons c s =>
      rw [findAnyToolStart_cons] at h
      split at h
      · cases h
        simp at hk
      · obtain ⟨⟨b', y'⟩, hr, he⟩ := Option.map_eq_some_iff.mp h
        cases he
        exact ih hr (by simpa using hk)

/-- Where a text has a marker, one of its spellings is found. -/
theorem strstr_none {s : Bytes} (h : findAnyToolStart s = none) (style : DsmlStyle) :
    strstr (dsmlSyntax style).toolCallsStart s = none := by
  have hcases : ∀ x y : Option (Bytes × Bytes), earlier x y = none → x = none ∧ y = none := by
    intro x y
    cases x <;> cases y <;> simp only [earlier, reduceCtorEq, and_self, false_and, and_false, imp_self]
    split <;> exact fun h => by cases h
  obtain ⟨h12, h3⟩ := hcases _ _ h
  obtain ⟨h1, h2⟩ := hcases _ _ h12
  cases style with
  | dsml => exact h1
  | short => exact h2
  | plain => exact h3

theorem findAnyToolStart_none_drop {s : Bytes} (h : findAnyToolStart s = none) (k : Nat) :
    findAnyToolStart (s.drop k) = none := by
  cases hd : findAnyToolStart (s.drop k) with
  | none => rfl
  | some r =>
    obtain ⟨hs, style, hstyle⟩ := findAnyToolStart_sound hd
    obtain ⟨x, hx⟩ := startsWith_iff.mp (markerStyle_some hstyle)
    apply absurd (strstr_none h style)
    apply strstr_of_infix
    refine ⟨s.take k ++ r.1, x, ?_⟩
    rw [List.append_assoc, List.append_assoc, ← hx, ← hs, List.take_append_drop]

/-- What may be shown stays before a literal not in sight whole. -/
theorem textStreamSafeLimit_before {l y t seg : Bytes} (h60 : (60 : UInt8) ∉ l) (hlen : l.length < 80)
    (hseg : seg <+: t ++ (60 :: l ++ y)) (hnone : strstr (60 :: l) seg = none)
    (hmark : findAnyToolStart seg = none) : textStreamSafeLimit seg true false ≤ t.length := by
  rcases value_in_sight h60 hseg hnone with ht | ⟨q, rfl, hpart, hq⟩
  · exact Nat.le_trans (textStreamSafeLimit_le hmark) ht.length_le
  · rw [partialOf, Bool.and_eq_true, decide_eq_true_eq, List.length_cons, List.length_cons] at hpart
    exact textStreamSafeLimit_hold hq (by omega) hmark

/-! ## The text the stream shows -/

def thinkStart (raw : Bytes) : Nat := if startsWith thinkOpen raw then thinkOpen.length else 0

/-- The text after the reasoning; `none` when it is not closed. -/
def visibleText (thinking : Bool) (raw : Bytes) : Option Bytes :=
  if thinking then (strstr thinkClose (raw.drop (thinkStart raw))).map fun r => r.2.drop thinkClose.length
  else some raw

/-- No update ends between a marker inside the reasoning and the end of the reasoning. -/
def ThinkingClosed (raw : Bytes) (n : Nat) : Prop :=
  findAnyToolStart ((raw.take n).drop (thinkStart raw)) ≠ none →
    strstr thinkClose ((raw.take n).drop (thinkStart raw)) ≠ none

instance (raw : Bytes) (n : Nat) : Decidable (ThinkingClosed raw n) :=
  inferInstanceAs (Decidable (_ → _))

theorem same_text (text : Bytes) : Same [] (emitText .reasoning text) ∧ Same [] (emitText .content text) := by
  cases text <;> exact ⟨⟨fun _ => rfl, fun _ => rfl, fun _ => Iff.rfl⟩,
    ⟨fun _ => rfl, fun _ => rfl, fun _ => Iff.rfl⟩⟩

/-- What a run of updates needs of the machine it drives: `T ts rem` holds of a
    machine with `rem` left to send. -/
structure Drives (full : Bytes) (seen : Bytes → Bytes → Prop) (body : Bytes) (rem0 : List ChatDelta)
    (T : OpenaiToolStream → List ChatDelta → Prop) : Prop where
  start : ∀ raw unseen pos a y style, full = raw ++ unseen → raw.drop pos = y → markerStyle y = some style →
    findAnyToolStart body = some (a, y ++ unseen) → T (openaiToolStreamInit raw pos) rem0
  update : ∀ raw unseen ts rem, full = raw ++ unseen → seen raw unseen → ts.parsePos ≤ raw.length → T ts rem →
    ∃ rem', T (openaiToolStreamUpdate raw ts).1 rem' ∧ Same rem ((openaiToolStreamUpdate raw ts).2 ++ rem') ∧
      (openaiToolStreamUpdate raw ts).1.parsePos ≤ raw.length ∧ (unseen = [] → rem' = [])
  stopped : ∀ ts rem, T ts rem → ts.active = false → rem = []
  unmarked : findAnyToolStart body = none → T .zero rem0

section
variable {full body : Bytes} {seen : Bytes → Bytes → Prop} {rem0 : List ChatDelta}
  {T : OpenaiToolStream → List ChatDelta → Prop}

/-- A stream in its text, `k` bytes into the body. -/
structure InText (full body : Bytes) (st : OpenaiStream) (n : Nat) : Prop where
  mode : st.mode = .text
  active : st.active = true
  tool : st.tool = .zero
  unbuffered : st.bufferTools = false
  pos : st.emitPos ≤ n
  text : ∃ k, full.drop st.emitPos = body.drop k ∧
    ∀ a y, findAnyToolStart body = some (a, y) → k ≤ a.length

/-- A stream that has handed the text over, or shows it no more. -/
structure InTool (T : OpenaiToolStream → List ChatDelta → Prop) (st : OpenaiStream) (n : Nat)
    (rem : List ChatDelta) : Prop where
  mode : st.mode = .tool ∨ (st.mode = .suppress ∧ rem = [])
  active : st.active = true
  tool : T st.tool rem
  pos : st.tool.parsePos ≤ n

theorem toolPhase_drives (hT : Drives full seen body rem0 T) {raw unseen : Bytes}
    (hfull : full = raw ++ unseen) (hseen : seen raw unseen) {st : OpenaiStream} {rem : List ChatDelta}
    (h : InTool T st raw.length rem) : ∃ rem', InTool T (inMode .tool (toolPhase raw) st).1 raw.length rem' ∧
      Same rem ((inMode .tool (toolPhase raw) st).2 ++ rem') ∧ (unseen = [] → rem' = []) := by
  rcases h.mode with hmode | ⟨hmode, rfl⟩
  · obtain ⟨rem', htool, hsame, hle, hend⟩ := hT.update raw unseen st.tool rem hfull hseen h.pos h.tool
    rw [inMode, if_pos hmode, toolPhase]
    refine ⟨rem', ⟨?_, h.active, htool, hle⟩, hsame, hend⟩
    dsimp only
    cases hactive : (openaiToolStreamUpdate raw st.tool).1.active with
    | true => exact .inl (if_pos rfl)
    | false => exact .inr ⟨if_neg Bool.false_ne_true, hT.stopped _ _ htool hactive⟩
  · rw [inMode, hmode, if_neg (by decide)]
    exact ⟨[], ⟨.inr ⟨hmode, rfl⟩, h.active, h.tool, h.pos⟩, .refl _, fun _ => rfl⟩

/-- At the first marker the machine starts. -/
theorem startTool_drives (hT : Drives full seen body rem0 T) {raw unseen : Bytes}
    (hfull : full = raw ++ unseen) {st : OpenaiStream} {pos : Nat} {a y : Bytes} {style : DsmlStyle}
    (hactive : st.active = true) (hbuf : st.bufferTools = false) (hdrop : raw.drop pos = y) (hstyle : markerStyle y = some style)
    (hbody : findAnyToolStart body = some (a, y ++ unseen)) :
    InTool T (startTool raw pos st) raw.length rem0 := by
  have htool := hT.start raw unseen pos a y style hfull hdrop hstyle hbody
  obtain ⟨x, hx⟩ := startsWith_iff.mp (markerStyle_some hstyle)
  have hlen := congrArg List.length (hdrop.trans hx)
  rw [List.length_append, List.length_drop] at hlen
  have hpos := toolCallsStart_pos style
  rw [startTool, hbuf, if_neg Bool.false_ne_true]
  rw [openaiToolStreamInit, hdrop, hstyle] at htool ⊢
  refine ⟨.inl rfl, hactive, htool, ?_⟩
  show pos + (dsmlSyntax style).toolCallsStart.length ≤ raw.length
  omega

theorem textPhase_drives (hT : Drives full seen body rem0 T) {raw unseen : Bytes}
    (hfull : full = raw ++ unseen) {final : Bool} (hfinal : final = true → unseen = []) {st : OpenaiStream}
    (h : InText full body st raw.length) :
    ((InText full body (textPhase true raw final st).1 raw.length ∧ final = false) ∨
      InTool T (textPhase true raw final st).1 raw.length rem0) ∧
      Same [] (textPhase true raw final st).2 := by
  obtain ⟨k, htext, hk⟩ := h.text
  have hsplit : raw.drop st.emitPos ++ unseen = body.drop k := by
    rw [← htext, hfull, List.drop_append_of_le_length h.pos]
  refine ⟨?_, ?_⟩
  · rw [textPhase, if_pos rfl]
    cases hmark : findAnyToolStart (raw.drop st.emitPos) with
    | some b =>
      obtain ⟨b, y⟩ := b
      obtain ⟨hseg, style, hstyle⟩ := findAnyToolStart_sound hmark
      have hfirst := findAnyToolStart_seen unseen hmark
      rw [hsplit] at hfirst
      obtain ⟨a, ha⟩ : ∃ a, findAnyToolStart body = some (a, y ++ unseen) := by
        cases hb : findAnyToolStart body with
        | none =>
          rw [findAnyToolStart_none_drop hb k] at hfirst
          cases hfirst
        | some r =>
          obtain ⟨a, z⟩ := r
          rw [findAnyToolStart_drop hb (hk a z hb)] at hfirst
          cases hfirst
          exact ⟨a, rfl⟩
      exact .inr (startTool_drives hT hfull h.active h.unbuffered
        (by rw [← List.drop_drop, hseg, List.drop_left]) hstyle ha)
    | none =>
      have hle := textStreamSafeLimit_le hmark
      rw [List.length_drop] at hle
      cases final with
      | true =>
        obtain rfl := hfinal rfl
        rw [List.append_nil] at hsplit
        have hnone : findAnyToolStart body = none := by
          cases hb : findAnyToolStart body with
          | none => rfl
          | some r =>
            obtain ⟨a, z⟩ := r
            have hdrop := findAnyToolStart_drop hb (hk a z hb)
            rw [← hsplit, hmark] at hdrop
            cases hdrop
        have hzero := hT.unmarked hnone
        refine .inr ⟨.inr ⟨rfl, hT.stopped _ _ hzero rfl⟩, h.active, ?_, ?_⟩
        · show T st.tool rem0
          rw [h.tool]
          exact hzero
        · show st.tool.parsePos ≤ raw.length
          rw [h.tool]
          exact Nat.zero_le _
      | false =>
        have hpos := h.pos
        refine .inl ⟨⟨rfl, h.active, h.tool, h.unbuffered, ?_, ?_⟩, rfl⟩
        · show st.emitPos + _ ≤ raw.length
          omega
        · refine ⟨k + textStreamSafeLimit (raw.drop st.emitPos) true false, ?_, ?_⟩
          · show full.drop (st.emitPos + _) = _
            rw [← List.drop_drop, htext, List.drop_drop]
          · intro a z hb
            have hka := hk a z hb
            have hdrop := findAnyToolStart_drop hb hka
            obtain ⟨hs, style, hstyle⟩ := findAnyToolStart_sound hdrop
            obtain ⟨x, hx⟩ := startsWith_iff.mp (markerStyle_some hstyle)
            obtain ⟨l, hl, h60, hlen⟩ := marker_shape style
            have hnone := strstr_none hmark style
            rw [hl] at hx hnone
            have hbound := textStreamSafeLimit_before h60 hlen (t := a.drop k) (y := x)
              ⟨unseen, by rw [hsplit, hs, hx]⟩ hnone hmark
            rw [List.length_drop] at hbound
            omega
  · rw [textPhase]
    split
    · exact (same_text _).2
    · exact (same_text _).2

/-- A stream in the reasoning, before its end. -/
structure InThinking (full : Bytes) (t : Bytes) (st : OpenaiStream) (n : Nat) : Prop where
  mode : st.mode = .thinking
  active : st.active = true
  tool : st.tool = .zero
  unbuffered : st.bufferTools = false
  pos : st.emitPos ≤ n
  unchecked : st.checkedThinkPrefix = false → st.emitPos = 0
  checked : st.checkedThinkPrefix = true → ∃ k, st.emitPos = thinkStart full + k ∧ k ≤ t.length

theorem checkThinkPrefix_inThinking {raw unseen t : Bytes} {final : Bool} (hfull : full = raw ++ unseen)
    (hfinal : final = true → unseen = []) {st : OpenaiStream} (h : InThinking full t st raw.length) :
    (checkThinkPrefix raw final st = none ∧ final = false) ∨
      ∃ st', checkThinkPrefix raw final st = some st' ∧ InThinking full t st' raw.length ∧
        st'.checkedThinkPrefix = true := by
  rw [checkThinkPrefix]
  cases hchecked : st.checkedThinkPrefix with
  | true => exact .inr ⟨st, if_pos rfl, h, hchecked⟩
  | false =>
    rw [if_neg Bool.false_ne_true]
    split
    · next hwait =>
      rw [Bool.and_eq_true, Bool.not_eq_true'] at hwait
      exact .inl ⟨rfl, hwait.2⟩
    · next hgo =>
      refine .inr ⟨_, rfl, ⟨h.mode, h.active, h.tool, h.unbuffered, ?_, fun hf => (by cases hf), fun _ => ⟨0, ?_,
        Nat.zero_le _⟩⟩, rfl⟩
      · show (if startsWith thinkOpen raw then _ else st.emitPos) ≤ raw.length
        split
        · next hs =>
          obtain ⟨x, hx⟩ := startsWith_iff.mp hs
          have := congrArg List.length hx
          rw [List.length_append] at this
          omega
        · exact h.pos
      · show (if startsWith thinkOpen raw then _ else st.emitPos) = thinkStart full + 0
        rw [h.unchecked hchecked, thinkStart, Nat.add_zero]
        cases hs : startsWith thinkOpen full with
        | false =>
          rw [hfull] at hs
          rw [startsWith_unseen hs]
        | true =>
          rw [hfull] at hs
          rcases startsWith_seen hs with hs | ⟨hpart, hcut⟩
          · rw [hs]
          · -- a part of `<think>` alone would have been waited on
            exfalso
            apply hgo
            rw [partialOf] at hpart
            rw [hpart, Bool.true_and, Bool.not_eq_true']
            cases final with
            | false => rfl
            | true => exact absurd (hfinal rfl) hcut

theorem thinkClose_shape : ∃ l, thinkClose = 60 :: l ∧ (60 : UInt8) ∉ l ∧ l.length < 80 :=
  ⟨thinkClose.tail, by decide, by decide, by decide⟩

/-- While the reasoning has not ended, no marker of it is in sight. -/
theorem reasoning_no_marker {raw unseen t x : Bytes} (hfull : full = raw ++ unseen)
    (hclosed : findAnyToolStart (raw.drop (thinkStart full)) ≠ none →
      strstr thinkClose (raw.drop (thinkStart full)) ≠ none) (hlow : thinkStart full ≤ raw.length)
    (ht : strstr thinkClose (full.drop (thinkStart full)) = some (t, x)) {k : Nat} (hk : k ≤ t.length)
    (hnone : strstr thinkClose (raw.drop (thinkStart full + k)) = none) :
    findAnyToolStart (raw.drop (thinkStart full + k)) = none := by
  cases hm : findAnyToolStart (raw.drop (thinkStart full + k)) with
  | none => rfl
  | some r =>
    exfalso
    have hearly : findAnyToolStart (raw.drop (thinkStart full)) ≠ none := by
      intro hno
      rw [← List.drop_drop, findAnyToolStart_none_drop hno k] at hm
      cases hm
    cases hc : strstr thinkClose (raw.drop (thinkStart full)) with
    | none => exact hclosed hearly hc
    | some b =>
      obtain ⟨b, y⟩ := b
      have hseen := strstr_seen unseen hc
      rw [← List.drop_append_of_le_length hlow, ← hfull, ht] at hseen
      cases hseen
      rw [← List.drop_drop, strstr_drop hc hk] at hnone
      cases hnone

theorem thinkingPhase_inThinking {raw unseen t x : Bytes} {final : Bool} (hfull : full = raw ++ unseen)
    (hfinal : final = true → unseen = []) (ht : strstr thinkClose (full.drop (thinkStart full)) = some (t, x))
    (hbody : body = x.drop thinkClose.length)
    (hclosed : findAnyToolStart (raw.drop (thinkStart full)) ≠ none →
      strstr thinkClose (raw.drop (thinkStart full)) ≠ none)
    {st : OpenaiStream} (h : InThinking full t st raw.length) :
    ((InThinking full t (thinkingPhase true raw final st).1 raw.length ∧ final = false) ∨
      InText full body (thinkingPhase true raw final st).1 raw.length) ∧
      Same [] (thinkingPhase true raw final st).2 := by
  rw [thinkingPhase]
  rcases checkThinkPrefix_inThinking hfull hfinal h with ⟨hwait, hf⟩ | ⟨st', hcheck, h', hchecked⟩
  · rw [hwait]
    exact ⟨.inl ⟨h, hf⟩, .refl _⟩
  · obtain ⟨k, hpos, hk⟩ := h'.checked hchecked
    have hle := h'.pos
    have hsplit : raw.drop st'.emitPos ++ unseen = (full.drop (thinkStart full)).drop k := by
      rw [← List.drop_append_of_le_length hle, ← hfull, hpos, List.drop_drop]
    have htk := strstr_drop ht hk
    rw [hcheck]
    dsimp only
    rw [if_pos rfl]
    cases hc : strstr thinkClose (raw.drop st'.emitPos) with
    | some b =>
      obtain ⟨b, y⟩ := b
      have hseen := strstr_seen unseen hc
      rw [hsplit, htk] at hseen
      obtain ⟨rfl, rfl⟩ := Prod.mk.inj (Option.some.inj hseen)
      obtain ⟨hs, hstart⟩ := strstr_sound hc
      obtain ⟨z, hz⟩ := startsWith_iff.mp hstart
      have hlen := congrArg List.length hs
      rw [hz, List.length_append, List.length_append, List.length_drop] at hlen
      refine ⟨.inr ⟨rfl, h'.active, h'.tool, h'.unbuffered, ?_, 0, ?_, fun _ _ _ => Nat.zero_le _⟩, (same_text _).1⟩
      · show st'.emitPos + (t.drop k).length + thinkClose.length ≤ raw.length
        omega
      · show full.drop (st'.emitPos + (t.drop k).length + thinkClose.length) = _
        rw [List.drop_zero, hbody, ← List.drop_drop, ← List.drop_drop, hfull,
          List.drop_append_of_le_length hle, hs, List.append_assoc, List.drop_left]
    | none =>
      have hmark : findAnyToolStart (raw.drop st'.emitPos) = none := by
        rw [hpos] at hc hle ⊢
        exact reasoning_no_marker hfull hclosed (by omega) ht hk hc
      rw [hmark]
      dsimp only
      cases final with
      | true =>
        obtain rfl := hfinal rfl
        rw [List.append_nil] at hsplit
        rw [hsplit, htk] at hc
        cases hc
      | false =>
        rw [if_neg Bool.false_ne_true]
        obtain ⟨l, hl, h60, hlen⟩ := thinkClose_shape
        obtain ⟨hs, hstart⟩ := strstr_sound htk
        obtain ⟨z, hz⟩ := startsWith_iff.mp hstart
        rw [hl] at hz hc
        have hbound := textStreamSafeLimit_before h60 hlen (t := t.drop k) (y := z)
          ⟨unseen, by rw [hsplit, hs, hz]⟩ hc hmark
        have hseg := textStreamSafeLimit_le hmark
        rw [List.length_drop] at hbound hseg
        rw [reasoningSafeLimit, if_pos rfl]
        generalize textStreamSafeLimit (raw.drop st'.emitPos) true false = limit at hbound hseg ⊢
        refine ⟨.inl ⟨⟨h'.mode, h'.active, h'.tool, h'.unbuffered, ?_, ?_, fun _ => ⟨k + limit, ?_, ?_⟩⟩, rfl⟩,
          (same_text _).1⟩
        · show st'.emitPos + limit ≤ raw.length
          omega
        · intro hf
          rw [show st'.checkedThinkPrefix = false from hf] at hchecked
          cases hchecked
        · show st'.emitPos + limit = _
          rw [hpos, Nat.add_assoc]
        · omega

/-! ## Runs of updates -/

/-- Where a stream stands after `n` bytes, and what it has yet to send. -/
inductive Streaming (thinking : Bool) (full body : Bytes) (rem0 : List ChatDelta)
    (T : OpenaiToolStream → List ChatDelta → Prop) (st : OpenaiStream) (n : Nat) : List ChatDelta → Prop
  | thinking {t x : Bytes} : thinking = true → strstr thinkClose (full.drop (thinkStart full)) = some (t, x) →
      body = x.drop thinkClose.length → InThinking full t st n → Streaming thinking full body rem0 T st n rem0
  | text : InText full body st n → Streaming thinking full body rem0 T st n rem0
  | tool {rem : List ChatDelta} : InTool T st n rem → Streaming thinking full body rem0 T st n rem

theorem Streaming.mono {thinking : Bool} {st : OpenaiStream} {n n' : Nat} {rem : List ChatDelta} (hn : n ≤ n')
    (h : Streaming thinking full body rem0 T st n rem) : Streaming thinking full body rem0 T st n' rem := by
  cases h with
  | thinking hmode ht hbody h =>
    exact .thinking hmode ht hbody ⟨h.mode, h.active, h.tool, h.unbuffered, Nat.le_trans h.pos hn, h.unchecked, h.checked⟩
  | text h => exact .text ⟨h.mode, h.active, h.tool, h.unbuffered, Nat.le_trans h.pos hn, h.text⟩
  | tool h => exact .tool ⟨h.mode, h.active, h.tool, Nat.le_trans h.pos hn⟩

/-- The end of an update: the text and tool phases. -/
theorem textTool_drives (hT : Drives full seen body rem0 T) {raw unseen : Bytes} (hfull : full = raw ++ unseen)
    (hseen : seen raw unseen) {final : Bool} (hfinal : final = true → unseen = []) {st : OpenaiStream}
    (h : InText full body st raw.length) :
    let r := inMode .text (textPhase true raw final) st
    let r' := inMode .tool (toolPhase raw) r.1
    ∃ rem', ((InText full body r'.1 raw.length ∧ rem' = rem0 ∧ final = false) ∨ InTool T r'.1 raw.length rem') ∧
      Same rem0 (r.2 ++ r'.2 ++ rem') ∧ (final = true → rem' = []) := by
  intro r r'
  obtain ⟨hst, hsame⟩ := textPhase_drives hT hfull hfinal h
  have hr : r = textPhase true raw final st := if_pos h.mode
  rw [← hr] at hst hsame
  rcases hst with ⟨hst, hf⟩ | hst
  · have hr' : r' = (r.1, []) := by
      show inMode .tool (toolPhase raw) r.1 = _
      rw [inMode, hst.mode, if_neg (by decide)]
    rw [hr', List.append_nil]
    refine ⟨rem0, .inl ⟨hst, rfl, hf⟩, ?_, fun h => by rw [hf] at h; cases h⟩
    have h := hsame.append (Same.refl rem0)
    rw [List.nil_append] at h
    exact h
  · obtain ⟨rem', hst', hsame', hend⟩ := toolPhase_drives hT hfull hseen hst
    refine ⟨rem', .inr hst', ?_, fun hf => hend (hfinal hf)⟩
    have h := hsame.append hsame'
    rw [List.nil_append, ← List.append_assoc] at h
    exact h

theorem openaiSseStreamUpdate_drives (hT : Drives full seen body rem0 T) {raw unseen : Bytes}
    (hfull : full = raw ++ unseen) (hseen : seen raw unseen) (final : Bool) (hfinal : final = true → unseen = [])
    {thinking : Bool} (hclosed : thinking = true → findAnyToolStart (raw.drop (thinkStart full)) ≠ none →
      strstr thinkClose (raw.drop (thinkStart full)) ≠ none)
    {st : OpenaiStream} {rem : List ChatDelta} (h : Streaming thinking full body rem0 T st raw.length rem) :
    ∃ rem', Streaming thinking full body rem0 T (openaiSseStreamUpdate true raw final st).1 raw.length rem' ∧
      Same rem ((openaiSseStreamUpdate true raw final st).2 ++ rem') ∧
      (final = true → rem' = [] ∧ T (openaiSseStreamUpdate true raw final st).1.tool []) := by
  have skip : ∀ {mode : OpenaiStreamMode} {phase : OpenaiStream → OpenaiStream × List ChatDelta}
      {st : OpenaiStream}, st.mode ≠ mode → inMode mode phase st = (st, []) := fun h => if_neg h
  rw [openaiSseStreamUpdate]
  cases h with
  | thinking hmode ht hbody h =>
    obtain ⟨hst, hsame⟩ := thinkingPhase_inThinking hfull hfinal ht hbody (hclosed hmode) h
    have hrun : inMode .thinking (thinkingPhase true raw final) st = thinkingPhase true raw final st :=
      if_pos h.mode
    rw [h.active, if_neg (by decide), hrun]
    generalize thinkingPhase true raw final st = r at hst hsame
    obtain ⟨st1, ds1⟩ := r
    dsimp only at hst hsame ⊢
    rcases hst with ⟨hst, hf⟩ | hst
    · have htext : st1.mode ≠ .text ∧ st1.mode ≠ .tool := by rw [hst.mode]; decide
      rw [skip htext.1]
      dsimp only
      rw [skip htext.2]
      dsimp only
      refine ⟨rem0, .thinking hmode ht hbody hst, ?_, fun h => by rw [hf] at h; cases h⟩
      have h := hsame.append (Same.refl rem0)
      rw [List.nil_append] at h
      rw [List.append_nil, List.append_nil]
      exact h
    · obtain ⟨rem', hst', hsame', hend⟩ := textTool_drives hT hfull hseen hfinal hst
      have h := hsame.append hsame'
      simp only [List.nil_append, ← List.append_assoc] at h
      refine ⟨rem', ?_, h, fun hf => ?_⟩
      · rcases hst' with ⟨hst', rfl, -⟩ | hst'
        · exact .text hst'
        · exact .tool hst'
      · obtain rfl := hend hf
        rcases hst' with ⟨-, -, hf'⟩ | hst'
        · rw [hf'] at hf
          cases hf
        · exact ⟨rfl, hst'.tool⟩
  | text h =>
    rw [h.active, if_neg (by decide), skip (by rw [h.mode]; decide)]
    obtain ⟨rem', hst', hsame', hend⟩ := textTool_drives hT hfull hseen hfinal h
    refine ⟨rem', ?_, hsame', fun hf => ?_⟩
    · rcases hst' with ⟨hst', rfl, -⟩ | hst'
      · exact .text hst'
      · exact .tool hst'
    · obtain rfl := hend hf
      rcases hst' with ⟨-, -, hf'⟩ | hst'
      · rw [hf'] at hf
        cases hf
      · exact ⟨rfl, hst'.tool⟩
  | tool h =>
    have hthink : st.mode ≠ .thinking ∧ st.mode ≠ .text := by
      rcases h.mode with h | ⟨h, -⟩ <;> rw [h] <;> decide
    rw [h.active, if_neg (by decide), skip hthink.1]
    dsimp only
    rw [skip hthink.2]
    obtain ⟨rem', hst', hsame, hend⟩ := toolPhase_drives hT hfull hseen h
    refine ⟨rem', .tool hst', hsame, fun hf => ?_⟩
    obtain rfl := hend (hfinal hf)
    exact ⟨rfl, hst'.tool⟩

/-- **A run of updates and the end of the stream** send what the machine was to send. -/
theorem openaiUpdates_drives (hT : Drives full seen body rem0 T) (hlast : seen full []) {thinking : Bool} :
    ∀ (cuts : List Nat) {st : OpenaiStream} {rem : List ChatDelta} {n : Nat},
      cuts.Pairwise (· ≤ ·) → (∀ m ∈ cuts, n ≤ m) → (∀ m ∈ cuts, seen (full.take m) (full.drop m)) →
      (thinking = true → (∀ m ∈ cuts, ThinkingClosed full m) ∧ visibleText true full = some body) →
      Streaming thinking full body rem0 T st (min n full.length) rem →
      let r := openaiUpdates full cuts st
      let f := openaiSseStreamUpdate true full true r.1
      Same rem (r.2 ++ f.2) ∧ T f.1.tool [] := by
  intro cuts
  induction cuts with
  | nil =>
    intro st rem n _ _ _ hclosed h
    have hend : thinking = true → findAnyToolStart (full.drop (thinkStart full)) ≠ none →
        strstr thinkClose (full.drop (thinkStart full)) ≠ none := by
      intro hmode _ hnone
      have hvisible := (hclosed hmode).2
      rw [visibleText, if_pos rfl, hnone] at hvisible
      cases hvisible
    obtain ⟨rem', -, hsame, hdone⟩ := openaiSseStreamUpdate_drives hT (List.append_nil full).symm hlast
      true (fun _ => rfl) hend (h.mono (Nat.min_le_right _ _))
    obtain ⟨rfl, htool⟩ := hdone rfl
    rw [List.append_nil] at hsame
    exact ⟨hsame, htool⟩
  | cons m cuts ih =>
    intro st rem n hsorted hlow hseen hclosed h
    rw [List.pairwise_cons] at hsorted
    rw [List.forall_mem_cons] at hlow hseen
    have hmin : min n full.length ≤ (full.take m).length := by
      rw [List.length_take]
      omega
    obtain ⟨rem', hst, hsame, -⟩ := openaiSseStreamUpdate_drives hT (List.take_append_drop m full).symm hseen.1
      false (fun hf => by cases hf) (fun hmode => (hclosed hmode).1 m List.mem_cons_self) (h.mono hmin)
    rw [List.length_take] at hst
    obtain ⟨hrest, htool⟩ := ih hsorted.2 hsorted.1 hseen.2
      (fun hmode => ⟨fun k hk => (hclosed hmode).1 k (List.mem_cons_of_mem _ hk), (hclosed hmode).2⟩) hst
    refine ⟨hsame.trans ?_, htool⟩
    show Same _ ((_ ++ _) ++ _)
    rw [List.append_assoc]
    exact (Same.refl _).append hrest

/-- The stream starts before its text. -/
theorem openaiStreamStart_streaming {thinking : Bool} (hbody : visibleText thinking full = some body) :
    Streaming thinking full body rem0 T (openaiStreamStart thinking false) (min 0 full.length) rem0 := by
  cases thinking with
  | false =>
    cases hbody
    exact .text ⟨rfl, rfl, rfl, rfl, Nat.zero_le _, 0, rfl, fun _ _ _ => Nat.zero_le _⟩
  | true =>
    rw [visibleText, if_pos rfl] at hbody
    obtain ⟨⟨t, x⟩, ht, he⟩ := Option.map_eq_some_iff.mp hbody
    exact .thinking rfl ht he.symm ⟨rfl, rfl, rfl, rfl, Nat.zero_le _, fun _ => rfl, fun h => by cases h⟩

theorem openaiStreamed_drives (hT : Drives full seen body rem0 T) (hlast : seen full []) {thinking : Bool}
    (hbody : visibleText thinking full = some body) {cuts : List Nat} (hsorted : cuts.Pairwise (· ≤ ·))
    (hseen : ∀ m ∈ cuts, seen (full.take m) (full.drop m))
    (hclosed : thinking = true → ∀ m ∈ cuts, ThinkingClosed full m) (calls : List ToolCall) :
    ∃ ds ts, T ts [] ∧ Same rem0 ds ∧ openaiStreamed thinking full cuts calls =
      ds ++ if calls ≠ [] ∧ !ts.emittedAny then appendToolCallDeltas calls else [] := by
  obtain ⟨hsame, htool⟩ := openaiUpdates_drives hT hlast cuts hsorted (fun _ _ => Nat.zero_le _) hseen
    (fun hmode => ⟨hclosed hmode, by rw [hmode] at hbody; exact hbody⟩) (openaiStreamStart_streaming hbody)
  refine ⟨_, _, htool, hsame, ?_⟩
  exact (List.append_assoc _ _ _).symm

end

/-! ## Agreement with the parser -/

theorem toolDeltas_at : ∀ (l : List (Bytes × Bytes)) (i j : Nat), (∀ c ∈ l, c.2 ≠ []) →
    namesAt j (toolDeltas i l) = (if i ≤ j then (l[j - i]?).toList.map Prod.fst else []) ∧
    argsAt j (toolDeltas i l) = (if i ≤ j then ((l[j - i]?).map Prod.snd).getD [] else []) ∧
    (j ∈ toolIndexes (toolDeltas i l) ↔ i ≤ j ∧ j < i + l.length)
  | [], i, j, _ => by
    refine ⟨?_, ?_, ?_⟩
    · split <;> rfl
    · split <;> rfl
    · simp only [toolDeltas, toolIndexes, List.filterMap_nil, List.not_mem_nil, List.length_nil, false_iff]
      omega
  | c :: l, i, j, hl => by
    rw [List.forall_mem_cons] at hl
    obtain ⟨h1, h2, h3⟩ := toolDeltas_at l (i + 1) j hl.2
    have hone : namesAt j (toolDeltas i (c :: l)) =
        (if i = j then [c.1] else []) ++ namesAt j (toolDeltas (i + 1) l) ∧
        argsAt j (toolDeltas i (c :: l)) = (if i = j then c.2 else []) ++ argsAt j (toolDeltas (i + 1) l) ∧
        (j ∈ toolIndexes (toolDeltas i (c :: l)) ↔ j = i ∨ j ∈ toolIndexes (toolDeltas (i + 1) l)) := by
      rw [toolDeltas, emitArgs, if_neg hl.1]
      by_cases hij : i = j <;> simp [namesAt, argsAt, toolIndexes, hij]
    rw [hone.1, hone.2.1, hone.2.2, h1, h2, h3]
    rcases Nat.lt_trichotomy j i with hlt | rfl | hgt
    · rw [if_neg (by omega), if_neg (by omega), if_neg (by omega), if_neg (by omega), if_neg (by omega),
        if_neg (by omega), List.length_cons]
      refine ⟨rfl, rfl, ?_⟩
      omega
    · rw [if_pos rfl, if_neg (by omega), if_pos (Nat.le_refl _), if_pos rfl, if_neg (by omega),
        if_pos (Nat.le_refl _), Nat.sub_self, List.length_cons]
      refine ⟨rfl, ?_, ?_⟩
      · rw [List.append_nil]
        rfl
      · omega
    · have hidx : j - i = (j - (i + 1)) + 1 := by omega
      rw [if_neg (by omega), if_pos (by omega), if_pos (by omega), if_neg (by omega), if_pos (by omega),
        if_pos (by omega), hidx, List.getElem?_cons_succ, List.length_cons]
      refine ⟨rfl, rfl, ?_⟩
      omega

/-- Deltas that are to a client the calls in one piece each. -/
theorem accumulatesTo_of_same {ds : List ChatDelta} {l : List (Bytes × Bytes)} {calls : List ToolCall}
    (h : Same (toolDeltas 0 l) ds)
    (hl : List.Forall₂ (fun c tc => c.1 = tc.name ∧ Delivers c.2 tc) l calls) : AccumulatesTo ds calls := by
  obtain ⟨hlen, hget⟩ := List.forall₂_iff_get.mp hl
  have hne : ∀ c ∈ l, c.2 ≠ [] := by
    intro c hc hnil
    obtain ⟨i, hi, rfl⟩ := List.getElem_of_mem hc
    have hcomplete := (hget i hi (hlen ▸ hi)).2.1.1
    rw [List.get_eq_getElem, hnil] at hcomplete
    cases hcomplete
  have hat := fun j => toolDeltas_at l 0 j hne
  refine ⟨?_, fun i hi => ?_, fun i hi => ?_⟩
  · have hset : (toolIndexes ds).toFinset = Finset.range calls.length := by
      ext j
      rw [List.mem_toFinset, Finset.mem_range, ← h.indexes j, (hat j).2.2, ← hlen]
      omega
    rw [← List.card_toFinset, hset, Finset.card_range]
  · have hname := (hget i (hlen ▸ hi) hi).1
    rw [← h.names i, (hat i).1, if_pos (Nat.zero_le _), Nat.sub_zero, List.getElem?_eq_getElem (hlen ▸ hi)]
    exact congrArg (fun x => [x]) hname
  · have hargs := (hget i (hlen ▸ hi) hi).2
    rw [← h.args i, (hat i).2.1, if_pos (Nat.zero_le _), Nat.sub_zero, List.getElem?_eq_getElem (hlen ▸ hi)]
    exact hargs

/-- The block the stream follows: the spelling of the first marker shown, and the
    text after it. -/
def streamBlock (thinking : Bool) (raw : Bytes) : Option (DsmlStyle × Bytes) := do
  let body ← visibleText thinking raw
  let (_, y) ← findAnyToolStart body
  let style ← markerStyle y
  some (style, y.drop (dsmlSyntax style).toolCallsStart.length)

/-- Where the parser looks for a block. -/
def parserSearch (raw : Bytes) (requireThinkingClosed : Bool) : Option Bytes :=
  if requireThinkingClosed then (findLastSubstr thinkClose raw).map fun r => r.drop thinkClose.length
  else some raw

/-- The block the parser reads. -/
def parsedBlock (raw : Bytes) (requireThinkingClosed : Bool) : Option (DsmlStyle × Bytes) := do
  let toolSearch ← parserSearch raw requireThinkingClosed
  let (style, _, start) ← findToolStart toolSearch
  let (_, p) ← strstr (dsmlSyntax style).toolCallsStart start
  some (style, p.drop (dsmlSyntax style).toolCallsStart.length)

/-- No update ends inside an echoed marker, past what the marker shares with the
    tags that can stand there. -/
def WholeEcho (style : DsmlStyle) (raw : Bytes) (cuts : List Nat) (marker : Bytes) : Prop :=
  ∀ n ∈ cuts, let seen := marker.take (marker.length - (raw.length - n))
    startsWith (dsmlSyntax style).toolCallsStart seen = true ∨
      partialAny seen (dsmlSyntax style).toolCallsEnd (dsmlSyntax style).invokeStart = true

instance (style : DsmlStyle) (raw : Bytes) (cuts : List Nat) (marker : Bytes) :
    Decidable (WholeEcho style raw cuts marker) :=
  inferInstanceAs (Decidable (∀ n ∈ cuts, _ ∨ _))

/-- The stream starts no call and leaves them to the end, or it follows the calls
    the parser reads: every parameter declares its `string` attribute and every
    value that is no text is one JSON value. -/
inductive FollowsBlock (thinking : Bool) (raw : Bytes) (cuts : List Nat) (requireThinkingClosed : Bool)
    (calls : List ToolCall) : Prop
  | left : (∀ style p, streamBlock thinking raw = some (style, p) → opensCall (dsmlSyntax style) p = false) →
      (∀ tc ∈ calls, tc.members ≠ none) → FollowsBlock thinking raw cuts requireThinkingClosed calls
  | followed {style : DsmlStyle} {p p' : Bytes} {cs : List DsmlCall} :
      streamBlock thinking raw = some (style, p) → parsedBlock raw requireThinkingClosed = some (style, p') →
      skipOpening (dsmlSyntax style) p = skipOpening (dsmlSyntax style) p' →
      ReadsCalls (dsmlSyntax style) (WholeEcho style raw cuts) p cs →
      (∀ c ∈ cs, ∀ a ∈ c.params, a.IsJson) → FollowsBlock thinking raw cuts requireThinkingClosed calls

/-- What the stream can follow. -/
structure StreamsAlike (thinking : Bool) (raw : Bytes) (cuts : List Nat) (requireThinkingClosed : Bool)
    (calls : List ToolCall) : Prop where
  reasoning : thinking = true → ∀ n ∈ cuts, ThinkingClosed raw n
  block : FollowsBlock thinking raw cuts requireThinkingClosed calls

/-- The parser's calls are those of its block. -/
theorem parsedBlock_calls {raw : Bytes} {req : Bool} {msg : ParsedMessage} {style : DsmlStyle} {p : Bytes}
    (hparse : parseGeneratedMessageEx raw req = some msg) (hblock : parsedBlock raw req = some (style, p)) :
    ∃ fuel r, p.length < fuel ∧ parseInvokes (dsmlSyntax style) fuel p = some (msg.calls, r) := by
  simp only [parsedBlock, Option.bind_eq_bind, Option.bind_eq_some_iff] at hblock
  obtain ⟨search, hsearch, ⟨style', pre, start⟩, hstart, ⟨before, q⟩, hq, he⟩ := hblock
  cases he
  unfold parseGeneratedMessageEx at hparse
  rw [show utf8 "</think>" = thinkClose from rfl] at hparse
  change (if req = true then (findLastSubstr thinkClose raw).map fun r => r.drop 8 else some raw) = some search
    at hsearch
  simp only [hsearch, hstart, hq, Option.bind_eq_bind, Option.bind_some, Option.bind_eq_some_iff] at hparse
  obtain ⟨⟨calls, r⟩, hcalls, he⟩ := hparse
  cases he
  refine ⟨_, r, ?_, hcalls⟩
  show (q.drop _).length < q.length + 1
  rw [List.length_drop]
  omega

/-- The machine on a block it can follow. -/
theorem drives_block {raw body : Bytes} {thinking : Bool} {cuts : List Nat} {style : DsmlStyle} {p : Bytes}
    {cs : List DsmlCall} (hbody : visibleText thinking raw = some body)
    (hblock : streamBlock thinking raw = some (style, p))
    (hreads : ReadsCalls (dsmlSyntax style) (WholeEcho style raw cuts) p cs) (hne : cs ≠ []) :
    Drives raw (fun _ unseen => CutsNoEcho style (WholeEcho style raw cuts) unseen) body (callsDeltas 0 cs)
      (Config style (WholeEcho style raw cuts) raw) where
  start raw' unseen pos a y style' hraw hdrop hstyle hfirst := by
    obtain ⟨x, hx⟩ := startsWith_iff.mp (markerStyle_some hstyle)
    have hseen : markerStyle (y ++ unseen) = some style' := by
      apply markerStyle_eq
      rw [hx, List.append_assoc]
      exact startsWith_append _ _
    simp only [streamBlock, hbody, hfirst, hseen, Option.bind_eq_bind, Option.bind_some, Option.some.injEq,
      Prod.mk.injEq] at hblock
    obtain ⟨rfl, hp⟩ := hblock
    have hlow : pos ≤ raw'.length := by
      rw [← Nat.not_lt]
      intro hlt
      rw [List.drop_eq_nil_of_le (by omega)] at hdrop
      rw [← hdrop] at hstyle
      cases hstyle
    rw [openaiToolStreamInit, hdrop, hstyle]
    cases cs with
    | nil => exact absurd rfl hne
    | cons c cs =>
      refine Config.invokes rfl rfl rfl ?_
      show ReadsCalls _ _ (raw.drop (pos + (dsmlSyntax style').toolCallsStart.length)) _
      rw [← List.drop_drop, hraw, List.drop_append_of_le_length hlow, hdrop, hp]
      rw [hraw] at hreads
      exact hreads
  update raw' unseen ts rem hraw hseen hpos h := by
    rw [hraw] at h hseen ⊢
    exact openaiToolStreamUpdate_config hseen hpos h
  stopped ts rem h hactive := h.inactive hactive
  unmarked hnone := by
    simp [streamBlock, hbody, hnone] at hblock

/-- The machine on a text that opens no call. -/
theorem drives_quiet {raw body : Bytes} {thinking : Bool} (hbody : visibleText thinking raw = some body)
    (hno : ∀ style p, streamBlock thinking raw = some (style, p) → opensCall (dsmlSyntax style) p = false) :
    ∃ style, Drives raw (fun _ _ => True) body []
      (fun ts rem => rem = [] ∧ ts.emittedAny = false ∧ Quiet style raw ts) := by
  obtain ⟨style, hstyle⟩ : ∃ style, ∀ a y, findAnyToolStart body = some (a, y) → markerStyle y = some style := by
    cases h : findAnyToolStart body with
    | none => exact ⟨.dsml, fun _ _ h => by cases h⟩
    | some r =>
      obtain ⟨-, style, hs⟩ := findAnyToolStart_sound h
      exact ⟨style, fun a y h => by cases h; exact hs⟩
  refine ⟨style, ?_, ?_, fun _ _ h _ => h.1, fun _ => ⟨rfl, rfl, .inl rfl⟩⟩
  · intro raw' unseen pos a y style' hraw hdrop hstyle' hfirst
    obtain ⟨x, hx⟩ := startsWith_iff.mp (markerStyle_some hstyle')
    have hseen := hstyle a _ hfirst
    have hsame : markerStyle (y ++ unseen) = some style' := by
      apply markerStyle_eq
      rw [hx, List.append_assoc]
      exact startsWith_append _ _
    rw [hsame] at hseen
    cases hseen
    have hlow : pos ≤ raw'.length := by
      rw [← Nat.not_lt]
      intro hlt
      rw [List.drop_eq_nil_of_le (by omega)] at hdrop
      rw [← hdrop] at hstyle'
      cases hstyle'
    have hcall := hno style ((y ++ unseen).drop (dsmlSyntax style).toolCallsStart.length) (by
      simp only [streamBlock, hbody, hfirst, hsame, Option.bind_eq_bind, Option.bind_some])
    rw [openaiToolStreamInit, hdrop, hstyle']
    refine ⟨rfl, rfl, .inr ⟨rfl, rfl, ?_⟩⟩
    show opensCall _ (raw.drop (pos + (dsmlSyntax style).toolCallsStart.length)) = false
    rw [← List.drop_drop, hraw, List.drop_append_of_le_length hlow, hdrop]
    exact hcall
  · intro raw' unseen ts rem hraw _ hpos h
    rw [hraw] at h ⊢
    obtain ⟨rfl, hemitted, hquiet⟩ := h
    obtain ⟨hsent, hquiet', hsame, hle⟩ := openaiToolStreamUpdate_quiet hpos hquiet
    rw [hsent]
    exact ⟨[], ⟨rfl, hsame.trans hemitted, hquiet'⟩, .refl _, hle, fun _ => rfl⟩

theorem config_done {style : DsmlStyle} {whole : Bytes → Prop} {full : Bytes} {ts : OpenaiToolStream}
    (h : Config style whole full ts []) : ts.emittedAny = true := by
  generalize hrem : ([] : List ChatDelta) = rem at h
  cases h with
  | invokes => cases hrem
  | params hcall => exact hcall.emitted
  | value hcall => exact hcall.emitted
  | closed hemitted => exact hemitted

/-- A finished call goes out with its members. -/
theorem delivers_finished {tc : ToolCall} {members : List JsonArg} (h : tc.members = some members) :
    Delivers (appendJsonObjectOrEmpty tc.arguments) tc := by
  have hok := jsonArgsParse_ok h
  have hspell := membersSpell_map (fun _ h => h.pairSpell) blank_nil hok
  rw [appendJsonObjectOrEmpty, show jsonArgsParse tc.arguments = some members from h]
  exact ⟨hspell.complete, members, h, jsonArgsParse_spelled hspell fun a ha => (hok a ha).key⟩

theorem findAnyToolStart_no_nul {s b y : Bytes} (h : findAnyToolStart s = some (b, y)) (hs : (0 : UInt8) ∉ s) :
    (0 : UInt8) ∉ y := by
  rw [(findAnyToolStart_sound h).1, List.mem_append, not_or] at hs
  exact hs.2

theorem visibleText_no_nul {thinking : Bool} {raw body : Bytes} (h : visibleText thinking raw = some body)
    (hraw : (0 : UInt8) ∉ raw) : (0 : UInt8) ∉ body := by
  rw [visibleText] at h
  split at h
  · obtain ⟨⟨t, x⟩, ht, he⟩ := Option.map_eq_some_iff.mp h
    cases he
    intro h0
    apply hraw
    apply List.mem_of_mem_drop (i := thinkStart raw)
    rw [(strstr_sound ht).1]
    exact List.mem_append_right _ (List.mem_of_mem_drop h0)
  · cases h
    exact hraw

theorem streamBlock_no_nul {thinking : Bool} {raw p : Bytes} {style : DsmlStyle}
    (h : streamBlock thinking raw = some (style, p)) (hraw : (0 : UInt8) ∉ raw) : (0 : UInt8) ∉ p := by
  simp only [streamBlock, Option.bind_eq_bind, Option.bind_eq_some_iff] at h
  obtain ⟨body, hbody, ⟨a, y⟩, hy, style', hstyle, he⟩ := h
  cases he
  intro h0
  exact findAnyToolStart_no_nul hy (visibleText_no_nul hbody hraw) (List.mem_of_mem_drop h0)

theorem Opening.suffix {syn : DsmlSyntax} {whole : Bytes → Prop} {p q : Bytes} (h : Opening syn whole p q) :
    q <:+ p := by
  induction h with
  | here => exact List.dropWhile_suffix _
  | marker _ _ _ ih => exact ih.trans ((List.drop_suffix _ _).trans (List.dropWhile_suffix _))

theorem ReadsCalls.no_nul {syn : DsmlSyntax} {whole : Bytes → Prop} {p : Bytes} {cs : List DsmlCall}
    (h : ReadsCalls syn whole p cs) (hp : (0 : UInt8) ∉ p) :
    ∀ c ∈ cs, ∀ a ∈ c.params, (0 : UInt8) ∉ a.key ∧ (0 : UInt8) ∉ a.raw := by
  induction h with
  | close => simp
  | call hopen _ _ htag _ hparams _ ih =>
    have hq : (0 : UInt8) ∉ _ := fun h0 => hp (hopen.suffix.subset h0)
    rw [(splitTag_sound htag).1, List.mem_append, not_or] at hq
    obtain ⟨h1, h2⟩ := hparams.no_nul hq.2
    rw [List.forall_mem_cons]
    exact ⟨h1, ih h2⟩

/-- A text and a number, after closed reasoning and behind an echoed marker. -/
def listedLast : Bytes := utf8 "<parameter name=\"n\" string=\"false\"> 1</parameter></invoke></tool_calls>"

def listedParams : Bytes := utf8 "<parameter name=\"p\" string=\"true\">a&lt;</parameter>" ++ listedLast

def listedBlock : Bytes := utf8 "<tool_calls><invoke name=\"e\">" ++ listedParams

def listedText : Bytes := utf8 "<think>x</think><tool_calls>" ++ listedBlock

theorem readsParams_param {syn : DsmlSyntax} {p tag value key type raw e p' r : Bytes} {ps : List DsmlParam}
    (hp : startsWith syn.invokeEnd (skipWs p) = false ∧ startsWith syn.paramStart (skipWs p) = true ∧
      splitTag (skipWs p) = some (tag, value) ∧ dsmlAttr tag (utf8 "name") = some key ∧
      dsmlAttr tag (utf8 "string") = some type ∧ strstr syn.paramEnd value = some (raw, e) ∧
      e.drop syn.paramEnd.length = p') (h : ReadsParams syn p' ps r) :
    ReadsParams syn p ({ key := key, type := type, raw := raw } :: ps) r := by
  obtain ⟨h1, h2, h3, h4, h5, h6, rfl⟩ := hp
  exact .param h1 h2 h3 h4 h5 h6 h

theorem listed_params : ReadsParams (dsmlSyntax .plain) listedParams
    [⟨utf8 "p", utf8 "true", utf8 "a&lt;"⟩, ⟨utf8 "n", utf8 "false", utf8 " 1"⟩] (utf8 "</tool_calls>") := by
  have hend : ReadsParams (dsmlSyntax .plain) (utf8 "</invoke></tool_calls>") [] (utf8 "</tool_calls>") := by
    have h := @ReadsParams.close (dsmlSyntax .plain) (utf8 "</invoke></tool_calls>") (by decide +kernel)
    rw [show (skipWs (utf8 "</invoke></tool_calls>")).drop (dsmlSyntax .plain).invokeEnd.length =
      utf8 "</tool_calls>" by decide +kernel] at h
    exact h
  have hlast := @readsParams_param _ listedLast (utf8 "<parameter name=\"n\" string=\"false\">")
    (utf8 " 1</parameter></invoke></tool_calls>") (utf8 "n") (utf8 "false") (utf8 " 1")
    (utf8 "</parameter></invoke></tool_calls>") _ _ _ (by decide +kernel) hend
  exact @readsParams_param _ _ (utf8 "<parameter name=\"p\" string=\"true\">")
    (utf8 "a&lt;</parameter>" ++ listedLast) _ _ _ (utf8 "</parameter>" ++ listedLast) _ _ _
    (by decide +kernel) hlast

theorem listed_calls {whole : Bytes → Prop} (hecho : whole listedBlock) :
    ReadsCalls (dsmlSyntax .plain) whole listedBlock
      [⟨utf8 "e", [⟨utf8 "p", utf8 "true", utf8 "a&lt;"⟩, ⟨utf8 "n", utf8 "false", utf8 " 1"⟩]⟩] := by
  have hskip : skipWs listedBlock = listedBlock := by decide +kernel
  have hcall := @Opening.here (dsmlSyntax .plain) whole (utf8 "<invoke name=\"e\">" ++ listedParams)
    (by decide +kernel)
  rw [show skipWs (utf8 "<invoke name=\"e\">" ++ listedParams) = utf8 "<invoke name=\"e\">" ++ listedParams by
    decide +kernel] at hcall
  have hopen : Opening (dsmlSyntax .plain) whole listedBlock (utf8 "<invoke name=\"e\">" ++ listedParams) := by
    apply Opening.marker
    · decide +kernel
    · rw [hskip]
      exact hecho
    · rw [show (skipWs listedBlock).drop (dsmlSyntax .plain).toolCallsStart.length =
        utf8 "<invoke name=\"e\">" ++ listedParams by decide +kernel]
      exact hcall
  exact @ReadsCalls.call _ _ _ _ (utf8 "<invoke name=\"e\">") listedParams _ _ _ _ hopen (by decide +kernel)
    (by decide +kernel) (by decide +kernel) (by decide +kernel) listed_params (.close (by decide +kernel))

/-- A parameter that does not declare its `string` attribute: the parser takes it
    for a text, the stream has already started the call. -/
def undeclaredText : Bytes :=
  utf8 "<tool_calls><invoke name=\"edit\"><parameter name=\"path\">a</parameter></invoke></tool_calls>"

end Ds4.Server
