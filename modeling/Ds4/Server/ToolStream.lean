import Ds4.Server.FlatBlock
import Ds4.Server.StreamLimit

/- The live projection of a tool block onto OpenAI argument deltas
   (`openai_tool_stream_update` of ds4_server.c), and what it sends over any
   sequence of updates.

   PROVED here: `ReadsCalls` is what the machine and the parser both walk, a block
   whose parameters all carry a `string` attribute. From it the parser makes the
   calls (`ReadsCalls.parseInvokes`), and an update that sees more of the text
   sends a part of `callsDeltas` and leaves the rest of it to send
   (`openaiToolStreamUpdate_config`).

   A machine at `parsePos` sees the bytes generated so far; `seg` is what it sees
   from there on and `unseen` is what is still to come. Deltas stand for the
   events of a connection that takes every write; the random tool ids are left out.

   Correspondence (C ↔ Lean):
     `dsml_tool_stream_state`, `openai_tool_stream`  ↔ `DsmlToolState`, `OpenaiToolStream`
     `openai_tool_start_invoke`, `openai_tool_start_param`, `openai_tool_finish_param`
                                                     ↔ `openaiToolStartInvoke`, …
     one round of `openai_tool_stream_update`        ↔ `openaiToolStreamStep`
     `raw_partial_any`                               ↔ `partialAny` -/
namespace Ds4.Server
open Bytes

/-! ## The machine -/

/-- What one event adds on the client's side. -/
inductive ChatDelta
  | reasoning (text : Bytes)
  | content (text : Bytes)
  | toolStart (index : Nat) (name : Bytes)
  | toolArgs (index : Nat) (text : Bytes)
  deriving DecidableEq

inductive DsmlToolState
  | betweenInvokes
  | betweenParams
  | paramValue
  | done
  | error
  deriving DecidableEq

structure OpenaiToolStream where
  state : DsmlToolState
  syn : DsmlSyntax
  parsePos : Nat
  index : Nat
  active : Bool
  emittedAny : Bool
  argsOpen : Bool
  firstParam : Bool
  paramIsString : Bool
  deriving DecidableEq

/-- A machine nothing has started yet. -/
def OpenaiToolStream.zero : OpenaiToolStream where
  state := .betweenInvokes
  syn := dsmlSyntax .plain
  parsePos := 0
  index := 0
  active := false
  emittedAny := false
  argsOpen := false
  firstParam := false
  paramIsString := false

def markerStyle (p : Bytes) : Option DsmlStyle :=
  [DsmlStyle.dsml, .short, .plain].find? fun style => startsWith (dsmlSyntax style).toolCallsStart p

/-- At a marker the machine starts after it; elsewhere it is an error. -/
def openaiToolStreamInit (raw : Bytes) (pos : Nat) : OpenaiToolStream :=
  match markerStyle (raw.drop pos) with
  | some style =>
    let syn := dsmlSyntax style
    { OpenaiToolStream.zero with
      active := true, syn := syn, parsePos := pos + syn.toolCallsStart.length }
  | none => { OpenaiToolStream.zero with state := .error, parsePos := pos }

def openaiToolStreamFail (ts : OpenaiToolStream) : OpenaiToolStream :=
  { ts with active := false, state := .error }

def emitArgs (index : Nat) (text : Bytes) : List ChatDelta :=
  if text = [] then [] else [.toolArgs index text]

def partialAny (p a b : Bytes) : Bool := partialOf p a || partialOf p b

def openaiToolStartInvoke (raw : Bytes) (ts : OpenaiToolStream) : OpenaiToolStream × List ChatDelta :=
  match splitTag (raw.drop ts.parsePos) with
  | none => (ts, [])
  | some (tag, _) =>
    match dsmlAttr tag (utf8 "name") with
    | none => (openaiToolStreamFail ts, [])
    | some name =>
      ({ ts with
          emittedAny := true, argsOpen := true, firstParam := true
          parsePos := ts.parsePos + tag.length, state := .betweenParams },
        .toolStart ts.index name :: emitArgs ts.index (utf8 "\x7b"))

/-- The member's key, up to the opening quote of a string. -/
def openaiToolEmitParamPrefix (ts : OpenaiToolStream) (name : Bytes) (isString : Bool) : List ChatDelta :=
  emitArgs ts.index ((if ts.firstParam then [] else utf8 ",") ++ jsonEscape name ++ utf8 ":" ++
    if isString then utf8 "\"" else [])

def openaiToolStartParam (raw : Bytes) (ts : OpenaiToolStream) : OpenaiToolStream × List ChatDelta :=
  match splitTag (raw.drop ts.parsePos) with
  | none => (ts, [])
  | some (tag, _) =>
    match dsmlAttr tag (utf8 "name"), dsmlAttr tag (utf8 "string") with
    | some name, some isString =>
      let stringValue := decide (isString = utf8 "true")
      ({ ts with
          firstParam := false, paramIsString := stringValue
          parsePos := ts.parsePos + tag.length, state := .paramValue },
        openaiToolEmitParamPrefix ts name stringValue)
    | _, _ => (openaiToolStreamFail ts, [])

/-- A part of the value: the text of a JSON string, or the bytes as they are. -/
def openaiToolEmitValue (ts : OpenaiToolStream) (text : Bytes) : List ChatDelta :=
  emitArgs ts.index (if ts.paramIsString then jsonEscapeFragment (dsmlUnescapeText text) else text)

def openaiToolFinishParam (ts : OpenaiToolStream) (value : Bytes) : OpenaiToolStream × List ChatDelta :=
  ({ ts with parsePos := ts.parsePos + value.length + ts.syn.paramEnd.length, state := .betweenParams },
    openaiToolEmitValue ts value ++ emitArgs ts.index (if ts.paramIsString then utf8 "\"" else []))

/-- The machine with its cursor at a suffix of the text. -/
def OpenaiToolStream.atText (ts : OpenaiToolStream) (raw p : Bytes) : OpenaiToolStream :=
  { ts with parsePos := raw.length - p.length }

/-- Whether the loop goes on after a tag: not while the tag is incomplete. -/
def tagRead (before after : OpenaiToolStream) : Bool :=
  !(after.parsePos == before.parsePos && after.state == before.state)

/-- One round of the loop: the new state, what it sends, and whether the loop goes on. -/
def openaiToolStreamStep (raw : Bytes) (ts : OpenaiToolStream) :
    OpenaiToolStream × List ChatDelta × Bool :=
  let seg := raw.drop ts.parsePos
  match ts.state with
  | .betweenInvokes =>
    let p := skipWs seg
    if p = [] then (ts.atText raw p, [], false)
    else
      let p := skipMarkers ts.syn p.length p
      let ts := ts.atText raw p
      if startsWith ts.syn.toolCallsEnd p then
        ({ ts with
            parsePos := ts.parsePos + ts.syn.toolCallsEnd.length, active := false, state := .done },
          [], false)
      else if partialAny p ts.syn.toolCallsEnd ts.syn.invokeStart then (ts, [], false)
      else if startsWith ts.syn.invokeStart p then
        let (ts', ds) := openaiToolStartInvoke raw ts
        (ts', ds, tagRead ts ts')
      else (openaiToolStreamFail ts, [], false)
  | .betweenParams =>
    let p := skipWs seg
    let ts := ts.atText raw p
    if p = [] then (ts, [], false)
    else if startsWith ts.syn.invokeEnd p then
      ({ ts with
          argsOpen := false, parsePos := ts.parsePos + ts.syn.invokeEnd.length
          index := ts.index + 1, state := .betweenInvokes },
        if ts.argsOpen then emitArgs ts.index (utf8 "\x7d") else [], true)
    else if partialAny p ts.syn.invokeEnd ts.syn.paramStart then (ts, [], false)
    else if startsWith ts.syn.paramStart p then
      let (ts', ds) := openaiToolStartParam raw ts
      (ts', ds, tagRead ts ts')
    else (openaiToolStreamFail ts, [], false)
  | .paramValue =>
    match strstr ts.syn.paramEnd seg with
    | some (value, _) =>
      let (ts', ds) := openaiToolFinishParam ts value
      (ts', ds, true)
    | none =>
      let limit := toolParamValueStreamSafeLen ts.syn.paramEnd ts.paramIsString seg
      ({ ts with parsePos := ts.parsePos + limit }, openaiToolEmitValue ts (seg.take limit), false)
  | .done => (ts, [], false)
  | .error => (ts, [], false)

/-- The loop; every round that goes on has taken a byte or stopped the machine. -/
def openaiToolStreamLoop (raw : Bytes) : Nat → OpenaiToolStream → OpenaiToolStream × List ChatDelta
  | 0, ts => (ts, [])
  | fuel + 1, ts =>
    if ts.active && ts.parsePos < raw.length then
      match openaiToolStreamStep raw ts with
      | (ts', ds, true) =>
        let (ts'', ds') := openaiToolStreamLoop raw fuel ts'
        (ts'', ds ++ ds')
      | (ts', ds, false) => (ts', ds)
    else (ts, [])

def openaiToolStreamUpdate (raw : Bytes) (ts : OpenaiToolStream) : OpenaiToolStream × List ChatDelta :=
  openaiToolStreamLoop raw (raw.length - ts.parsePos) ts

/-! ## What a client makes of the deltas -/

def namesAt (i : Nat) (ds : List ChatDelta) : List Bytes :=
  ds.filterMap fun
    | .toolStart j name => if j = i then some name else none
    | _ => none

def argsAt (i : Nat) (ds : List ChatDelta) : Bytes :=
  ds.flatMap fun
    | .toolArgs j text => if j = i then text else []
    | _ => []

def toolIndexes (ds : List ChatDelta) : List Nat :=
  ds.filterMap fun
    | .toolStart j _ => some j
    | .toolArgs j _ => some j
    | _ => none

/-- The same to a client that puts the fragments of each call together. -/
structure Same (ds ds' : List ChatDelta) : Prop where
  names : ∀ i, namesAt i ds = namesAt i ds'
  args : ∀ i, argsAt i ds = argsAt i ds'
  indexes : ∀ i, i ∈ toolIndexes ds ↔ i ∈ toolIndexes ds'

theorem Same.refl (ds : List ChatDelta) : Same ds ds := ⟨fun _ => rfl, fun _ => rfl, fun _ => Iff.rfl⟩

theorem Same.trans {a b c : List ChatDelta} (h : Same a b) (h' : Same b c) : Same a c :=
  ⟨fun i => (h.names i).trans (h'.names i), fun i => (h.args i).trans (h'.args i),
    fun i => (h.indexes i).trans (h'.indexes i)⟩

theorem Same.append {a a' b b' : List ChatDelta} (h : Same a a') (h' : Same b b') :
    Same (a ++ b) (a' ++ b') where
  names i := by
    have h1 := h.names i
    have h2 := h'.names i
    simp only [namesAt, List.filterMap_append] at h1 h2 ⊢
    rw [h1, h2]
  args i := by
    have h1 := h.args i
    have h2 := h'.args i
    simp only [argsAt, List.flatMap_append] at h1 h2 ⊢
    rw [h1, h2]
  indexes i := by
    have h1 := h.indexes i
    have h2 := h'.indexes i
    simp only [toolIndexes, List.filterMap_append, List.mem_append] at h1 h2 ⊢
    rw [h1, h2]

/-- A fragment may be cut anywhere. -/
theorem same_emitArgs (i : Nat) (a b : Bytes) : Same (emitArgs i (a ++ b)) (emitArgs i a ++ emitArgs i b) := by
  cases a with
  | nil => exact .refl _
  | cons c a =>
    cases b with
    | nil =>
      rw [List.append_nil, show emitArgs i [] = [] from rfl, List.append_nil]
      exact .refl _
    | cons d b =>
      refine ⟨fun j => rfl, fun j => ?_, fun j => ?_⟩
      · by_cases h : i = j <;> simp [argsAt, emitArgs, h]
      · simp [toolIndexes, emitArgs]

/-- Deltas of one call sent in two steps. -/
theorem Same.emit {i : Nat} {a b : Bytes} (rest : List ChatDelta) :
    Same (emitArgs i (a ++ b) ++ rest) (emitArgs i a ++ (emitArgs i b ++ rest)) := by
  have h := (same_emitArgs i a b).append (Same.refl rest)
  rw [List.append_assoc] at h
  exact h

/-! ## What the walk sends -/

/-- The rest of an arguments object, from a place between two members. -/
def paramsRest : Bool → List DsmlParam → Bytes
  | _, [] => utf8 "\x7d"
  | first, a :: ps => (if first then [] else utf8 ",") ++ a.streamed ++ paramsRest false ps

/-- The rest of a value, with the closing quote of a string. -/
def valueRest (isString : Bool) (raw : Bytes) : Bytes :=
  if isString then jsonEscapeFragment (dsmlUnescapeText raw) ++ utf8 "\"" else raw

/-- Calls under the indexes from `i` on, each by its name and its arguments. -/
def toolDeltas : Nat → List (Bytes × Bytes) → List ChatDelta
  | _, [] => []
  | i, c :: calls => .toolStart i c.1 :: (emitArgs i c.2 ++ toolDeltas (i + 1) calls)

def callsDeltas (i : Nat) (calls : List DsmlCall) : List ChatDelta :=
  toolDeltas i (calls.map fun c => (c.name, c.streamed))

theorem paramsRest_first (ps : List DsmlParam) :
    paramsRest true ps = (utf8 ",").intercalate (ps.map DsmlParam.streamed) ++ utf8 "\x7d" := by
  induction ps with
  | nil => rfl
  | cons a ps ih =>
    rw [paramsRest, if_pos rfl, List.nil_append]
    cases ps with
    | nil => rw [List.map_singleton, List.intercalate_singleton, paramsRest]
    | cons b ps =>
      rw [paramsRest, if_pos rfl, List.nil_append] at ih
      rw [paramsRest, if_neg Bool.false_ne_true, List.append_assoc (utf8 ","), ih, List.map_cons,
        List.map_cons, List.map_cons, List.intercalate_cons_cons]
      simp only [List.append_assoc]

theorem streamed_eq (c : DsmlCall) : c.streamed = utf8 "\x7b" ++ paramsRest true c.params := by
  rw [paramsRest_first]
  rfl

theorem param_streamed_eq (a : DsmlParam) : a.streamed = jsonEscape a.key ++ utf8 ":" ++
    ((if a.type = utf8 "true" then utf8 "\"" else []) ++ valueRest (decide (a.type = utf8 "true")) a.raw) := by
  rw [DsmlParam.streamed, valueRest, List.append_assoc]
  by_cases h : a.type = utf8 "true"
  · rw [if_pos h, if_pos h, if_pos (decide_eq_true h)]
    rfl
  · rw [if_neg h, if_neg h, if_neg (by rw [decide_eq_true_eq]; exact h)]
    rfl

/-! ## What is in sight -/

/-- A literal that stands in the text is in sight, or cut off by the end of what is. -/
theorem startsWith_seen {lit s u : Bytes} (h : startsWith lit (s ++ u) = true) :
    startsWith lit s = true ∨ (partialOf s lit = true ∧ u ≠ []) := by
  by_cases hlen : s.length < lit.length
  · rw [startsWith_append_split lit u s hlen, Bool.and_eq_true] at h
    refine .inr ⟨by rw [partialOf, decide_eq_true hlen, h.1]; rfl, ?_⟩
    rintro rfl
    obtain ⟨r, hr⟩ := startsWith_iff.mp h.2
    have hr := congrArg List.length hr
    simp only [List.length_nil, List.length_append, List.length_drop] at hr
    omega
  · rw [startsWith_append_long u (by omega)] at h
    exact .inl h

theorem startsWith_unseen {lit s u : Bytes} (h : startsWith lit (s ++ u) = false) :
    startsWith lit s = false := by
  rw [Bool.eq_false_iff] at h ⊢
  intro hs
  obtain ⟨r, rfl⟩ := startsWith_iff.mp hs
  exact h (by rw [List.append_assoc]; exact startsWith_append _ _)

theorem skipWs_seen (s u : Bytes) :
    (skipWs s = [] ∧ skipWs (s ++ u) = skipWs u) ∨ (skipWs s ≠ [] ∧ skipWs (s ++ u) = skipWs s ++ u) := by
  have h : skipWs (s ++ u) = if (skipWs s).isEmpty then skipWs u else skipWs s ++ u := List.dropWhile_append
  cases hs : skipWs s with
  | nil =>
    rw [hs] at h
    exact .inl ⟨rfl, h⟩
  | cons c r =>
    rw [hs] at h
    exact .inr ⟨by simp, h⟩

theorem strstr_seen {lit : Bytes} (u : Bytes) : ∀ {s a r : Bytes}, strstr lit s = some (a, r) →
    strstr lit (s ++ u) = some (a, r ++ u) := by
  intro s
  induction s with
  | nil =>
    intro a r h
    simp only [strstr] at h
    split at h
    · next hlit =>
      obtain ⟨x, hx⟩ := startsWith_iff.mp hlit
      obtain ⟨rfl, -⟩ := List.append_eq_nil_iff.mp hx.symm
      cases h
      exact strstr_of_startsWith (startsWith_nil _)
    · cases h
  | cons c s ih =>
    intro a r h
    rw [strstr] at h
    rw [List.cons_append, strstr]
    split at h
    · next hlit =>
      cases h
      rw [← List.cons_append, startsWith_append_long, if_pos hlit]
      obtain ⟨x, hx⟩ := startsWith_iff.mp hlit
      rw [hx, List.length_append]
      omega
    · next hlit =>
      obtain ⟨⟨a', r'⟩, hr, he⟩ := Option.map_eq_some_iff.mp h
      cases he
      -- the literal fits in what follows, so a match here would have been in sight
      have hfit : lit.length ≤ (c :: s).length := by
        obtain ⟨hs, hlit'⟩ := strstr_sound hr
        obtain ⟨x, hx⟩ := startsWith_iff.mp hlit'
        rw [hs, hx]
        simp only [List.length_cons, List.length_append]
        omega
      rw [← List.cons_append, startsWith_append_long u hfit, if_neg hlit, ih hr]
      rfl

theorem strstr_drop {lit : Bytes} : ∀ {k : Nat} {s a r : Bytes}, strstr lit s = some (a, r) → k ≤ a.length →
    strstr lit (s.drop k) = some (a.drop k, r) := by
  intro k
  induction k with
  | zero => exact fun h _ => h
  | succ k ih =>
    intro s a r h hk
    cases s with
    | nil =>
      obtain ⟨hs, -⟩ := strstr_sound h
      obtain ⟨rfl, -⟩ := List.append_eq_nil_iff.mp hs.symm
      simp at hk
    | cons c s =>
      rw [strstr] at h
      split at h
      · cases h
        simp at hk
      · obtain ⟨⟨a', r'⟩, hr, he⟩ := Option.map_eq_some_iff.mp h
        cases he
        exact ih hr (by simpa using hk)

theorem strstr_cut {lit s u a r : Bytes} (h : strstr lit (s ++ u) = some (a, r))
    (hnone : strstr lit s = none) : u ≠ [] := by
  rintro rfl
  rw [List.append_nil, hnone] at h
  cases h

/-- A tag that stands in the text is in sight whole, or its end is cut off. -/
theorem splitTag_seen {s u tag v : Bytes} (h : splitTag (s ++ u) = some (tag, v)) :
    (∃ v', splitTag s = some (tag, v') ∧ v = v' ++ u) ∨ (splitTag s = none ∧ u ≠ []) := by
  cases hs : strchr 62 s with
  | none =>
    obtain ⟨⟨a, r⟩, hr, -⟩ := Option.map_eq_some_iff.mp h
    exact .inr ⟨by rw [splitTag, hs]; rfl, strstr_cut hr hs⟩
  | some b =>
    obtain ⟨a, r⟩ := b
    have hseen : strchr 62 (s ++ u) = some (a, r ++ u) := strstr_seen u hs
    obtain ⟨x, hx⟩ := startsWith_iff.mp (strstr_sound hs).2
    rw [splitTag, hseen] at h
    cases h
    refine .inl ⟨r.drop 1, by rw [splitTag, hs]; rfl, ?_⟩
    rw [hx]
    rfl

/-- What the loop over echoed markers sees of an opening: the next tag, or a part
    of the blanks and echoes before it. `P` is what an echo cut off is known by. -/
theorem opening_seen {style : DsmlStyle} {whole : Bytes → Prop} {P : Bytes → Prop} {u : Bytes}
    (hwhole : ∀ s, s ≠ [] → startsWith (dsmlSyntax style).toolCallsStart (s ++ u) = true → whole (s ++ u) →
      startsWith (dsmlSyntax style).toolCallsStart s = true ∨ P s) (hnil : P []) {p q : Bytes}
    (h : Opening (dsmlSyntax style) whole p q) : ∀ (seg : Bytes), p = seg ++ u → ∀ fuel,
      (skipWs seg).length ≤ fuel → let s := skipMarkers (dsmlSyntax style) fuel (skipWs seg)
      s <:+ seg ∧ Opening (dsmlSyntax style) whole (s ++ u) q ∧ (s ++ u = q ∨
        (P s ∧ u ≠ [] ∧ (s = [] ∨ startsWith (dsmlSyntax style).toolCallsStart (s ++ u) = true))) := by
  have hnomark : startsWith (dsmlSyntax style).toolCallsStart [] = false := by cases style <;> rfl
  induction h with
  | @here p hno =>
    intro seg hp fuel _
    subst hp
    have hq : Opening (dsmlSyntax style) whole (skipWs (seg ++ u)) (skipWs (seg ++ u)) := by
      have h := @Opening.here (dsmlSyntax style) whole (skipWs (seg ++ u))
      rw [skipWs_skipWs] at h
      exact h hno
    rcases skipWs_seen seg u with ⟨hseg, hskip⟩ | ⟨-, hskip⟩
    · rw [hseg, skipMarkers_of_not hnomark]
      simp only [List.nil_append]
      refine ⟨List.nil_suffix, ?_, ?_⟩
      · rw [hskip] at hno ⊢
        exact .here hno
      · by_cases hu : u = []
        · left
          rw [hskip, hu]
          rfl
        · exact .inr ⟨hnil, hu, .inl trivial⟩
    · rw [hskip] at hno hq ⊢
      rw [skipMarkers_of_not (startsWith_unseen hno)]
      exact ⟨List.dropWhile_suffix _, hq, .inl rfl⟩
  | @marker p q hstart hw hopen ih =>
    intro seg hp fuel hfuel
    subst hp
    rcases skipWs_seen seg u with ⟨hseg, hskip⟩ | ⟨hne, hskip⟩
    · rw [hseg, skipMarkers_of_not hnomark]
      simp only [List.nil_append]
      rw [hskip] at hstart hw hopen
      refine ⟨List.nil_suffix, .marker hstart hw hopen, .inr ⟨hnil, ?_, .inl trivial⟩⟩
      rintro rfl
      rw [skipWs_nil, hnomark] at hstart
      cases hstart
    · rw [hskip] at hstart hw hopen
      cases hmark : startsWith (dsmlSyntax style).toolCallsStart (skipWs seg) with
      | true =>
        have hpos := toolCallsStart_pos style
        obtain ⟨r, hr⟩ := startsWith_iff.mp hmark
        have hlen := congrArg List.length hr
        rw [List.length_append] at hlen
        have hdrop : (skipWs seg ++ u).drop (dsmlSyntax style).toolCallsStart.length =
            (skipWs seg).drop (dsmlSyntax style).toolCallsStart.length ++ u :=
          List.drop_append_of_le_length (by omega)
        have hshort := skipWs_length ((skipWs seg).drop (dsmlSyntax style).toolCallsStart.length)
        rw [List.length_drop] at hshort
        obtain ⟨n, rfl⟩ : ∃ n, fuel = n + 1 := ⟨fuel - 1, by omega⟩
        rw [skipMarkers, if_pos hmark]
        obtain ⟨hsuf, hopen', hs⟩ := ih _ (by rw [hskip, hdrop]) n (by omega)
        exact ⟨hsuf.trans ((List.drop_suffix _ _).trans (List.dropWhile_suffix _)), hopen', hs⟩
      | false =>
        rw [skipMarkers_of_not hmark]
        have hP : P (skipWs seg) := by
          rcases hwhole _ hne hstart hw with h | h
          · rw [hmark] at h
            cases h
          · exact h
        have hu : u ≠ [] := by
          rintro rfl
          rw [List.append_nil, hmark] at hstart
          cases hstart
        have hskip' : skipWs (skipWs seg ++ u) = skipWs seg ++ u := by
          rw [← hskip, skipWs_skipWs]
        refine ⟨List.dropWhile_suffix _, ?_, .inr ⟨hP, hu, .inr hstart⟩⟩
        apply Opening.marker
        · rw [hskip']
          exact hstart
        · rw [hskip']
          exact hw
        · rw [hskip']
          exact hopen

/-! ## The invariant -/

/-- A call with a name stands next. -/
def opensCall (syn : DsmlSyntax) (p : Bytes) : Bool :=
  let q := skipOpening syn p
  startsWith syn.invokeStart q && ((splitTag q).bind fun r => dsmlAttr r.1 (utf8 "name")).isSome

/-- A machine that sends nothing any more: stopped, or before a text that is no call. -/
def Quiet (style : DsmlStyle) (full : Bytes) (ts : OpenaiToolStream) : Prop :=
  ts.active = false ∨ (ts.syn = dsmlSyntax style ∧ ts.state = .betweenInvokes ∧
    opensCall (dsmlSyntax style) (full.drop ts.parsePos) = false)

section
variable (style : DsmlStyle) (whole : Bytes → Prop) (full : Bytes)

/-- A machine inside a call, with the calls that follow it. -/
structure InCall (ts : OpenaiToolStream) (r : Bytes) (calls : List DsmlCall) : Prop where
  syn : ts.syn = dsmlSyntax style
  active : ts.active = true
  emitted : ts.emittedAny = true
  argsOpen : ts.argsOpen = true
  next : ReadsCalls (dsmlSyntax style) whole r calls

/-- Where a machine stands in the walk over the whole text, and what it has yet to send. -/
inductive Config : OpenaiToolStream → List ChatDelta → Prop
  | invokes {ts : OpenaiToolStream} {c : DsmlCall} {calls : List DsmlCall} :
      ts.syn = dsmlSyntax style → ts.active = true → ts.state = .betweenInvokes →
      ReadsCalls (dsmlSyntax style) whole (full.drop ts.parsePos) (c :: calls) →
      Config ts (callsDeltas ts.index (c :: calls))
  | params {ts : OpenaiToolStream} {ps : List DsmlParam} {r : Bytes} {calls : List DsmlCall} :
      InCall style whole ts r calls → ts.state = .betweenParams →
      ReadsParams (dsmlSyntax style) (full.drop ts.parsePos) ps r →
      Config ts (emitArgs ts.index (paramsRest ts.firstParam ps) ++ callsDeltas (ts.index + 1) calls)
  | value {ts : OpenaiToolStream} {raw e : Bytes} {ps : List DsmlParam} {r : Bytes}
      {calls : List DsmlCall} :
      InCall style whole ts r calls → ts.state = .paramValue → ts.firstParam = false →
      strstr (dsmlSyntax style).paramEnd (full.drop ts.parsePos) = some (raw, e) →
      ReadsParams (dsmlSyntax style) (e.drop (dsmlSyntax style).paramEnd.length) ps r →
      Config ts (emitArgs ts.index (valueRest ts.paramIsString raw ++ paramsRest false ps) ++
        callsDeltas (ts.index + 1) calls)
  | closed {ts : OpenaiToolStream} : ts.emittedAny = true → Quiet style full ts → Config ts []

/-- After the end of a call: the next one, or none. -/
theorem Config.next {ts : OpenaiToolStream} {calls : List DsmlCall} (hsyn : ts.syn = dsmlSyntax style)
    (hactive : ts.active = true) (hemitted : ts.emittedAny = true) (hstate : ts.state = .betweenInvokes)
    (h : ReadsCalls (dsmlSyntax style) whole (full.drop ts.parsePos) calls) :
    Config style whole full ts (callsDeltas ts.index calls) := by
  cases calls with
  | cons c calls => exact .invokes hsyn hactive hstate h
  | nil =>
    cases h with
    | close hend =>
      refine .closed hemitted (.inr ⟨hsyn, hstate, ?_⟩)
      rw [opensCall]
      have hno : startsWith (dsmlSyntax style).invokeStart
          (skipOpening (dsmlSyntax style) (full.drop ts.parsePos)) = false := by
        obtain ⟨x, hx⟩ := startsWith_iff.mp hend
        rw [hx]
        cases style <;> rfl
      rw [hno]
      rfl

/-- One round: it sends a part of what is left, and at the end of the text it goes
    on until nothing is left. -/
structure Progress (raw unseen : Bytes) (ts : OpenaiToolStream) (rem : List ChatDelta)
    (res : OpenaiToolStream × List ChatDelta × Bool) : Prop where
  step : ∃ rem', Config style whole full res.1 rem' ∧ Same rem (res.2.1 ++ rem') ∧
    (res.2.2 = false → unseen = [] → rem' = [])
  pos : res.1.parsePos ≤ raw.length
  moved : res.2.2 = true → res.1.active = false ∨ ts.parsePos < res.1.parsePos

/-- A round that waits for more text. -/
theorem Progress.wait {raw unseen : Bytes} {ts ts' : OpenaiToolStream} {rem : List ChatDelta}
    (h : Config style whole full ts' rem) (hpos : ts'.parsePos ≤ raw.length)
    (hcut : unseen = [] → rem = []) : Progress style whole full raw unseen ts rem (ts', [], false) :=
  ⟨⟨rem, h, .refl rem, fun _ => hcut⟩, hpos, fun h => by cases h⟩

end

/-- What the end of the sight cuts of an echo, is also the beginning of a tag. -/
def CutsNoEcho (style : DsmlStyle) (whole : Bytes → Prop) (unseen : Bytes) : Prop :=
  ∀ s, s ≠ [] → startsWith (dsmlSyntax style).toolCallsStart (s ++ unseen) = true → whole (s ++ unseen) →
    startsWith (dsmlSyntax style).toolCallsStart s = true ∨
      partialAny s (dsmlSyntax style).toolCallsEnd (dsmlSyntax style).invokeStart = true

/-! ## One round -/

/-- The cursor at a suffix of what is in sight. -/
theorem drop_atText {raw unseen p : Bytes} (h : p <:+ raw) :
    raw.drop (raw.length - p.length) = p ∧
      (raw ++ unseen).drop (raw.length - p.length) = p ++ unseen := by
  obtain ⟨a, rfl⟩ := h
  rw [List.length_append, Nat.add_sub_cancel, List.drop_left, List.append_assoc, List.drop_left]
  exact ⟨rfl, rfl⟩

theorem tag_facts (style : DsmlStyle) :
    partialAny [] (dsmlSyntax style).toolCallsEnd (dsmlSyntax style).invokeStart = true ∧
    startsWith (dsmlSyntax style).toolCallsEnd [] = false ∧
    0 < (dsmlSyntax style).toolCallsEnd.length ∧ 0 < (dsmlSyntax style).invokeEnd.length ∧
    0 < (dsmlSyntax style).paramEnd.length := by
  cases style <;> decide

/-- A tag in full sight is no beginning of itself or of the other tag. -/
theorem partialAny_full {s a b : Bytes} (hb : startsWith b s = true) (hab : startsWith b a = false) :
    partialAny s a b = false := by
  obtain ⟨x, rfl⟩ := startsWith_iff.mp hb
  rw [partialAny, Bool.or_eq_false_iff]
  constructor
  · rw [partialOf, Bool.and_eq_false_iff]
    right
    rw [Bool.eq_false_iff] at hab ⊢
    intro h
    obtain ⟨y, hy⟩ := startsWith_iff.mp h
    exact hab (by rw [hy, List.append_assoc]; exact startsWith_append _ _)
  · rw [partialOf, Bool.and_eq_false_iff]
    left
    rw [decide_eq_false_iff_not, List.length_append]
    omega

/-- Where two tags of one block cannot both stand. -/
theorem tag_exclusive (style : DsmlStyle) :
    startsWith (dsmlSyntax style).invokeStart (dsmlSyntax style).toolCallsEnd = false ∧
    startsWith (dsmlSyntax style).paramStart (dsmlSyntax style).invokeEnd = false ∧
    ∀ s, startsWith (dsmlSyntax style).toolCallsStart s = true →
      startsWith (dsmlSyntax style).toolCallsEnd s = false ∧
        startsWith (dsmlSyntax style).invokeStart s = false := by
  refine ⟨by cases style <;> decide, by cases style <;> decide, fun s hs => ?_⟩
  obtain ⟨x, rfl⟩ := startsWith_iff.mp hs
  cases style <;> exact ⟨rfl, rfl⟩

/-- A round between two calls, from what the loop over blanks and echoes leaves. -/
theorem openaiToolStreamStep_invokes {style : DsmlStyle} {raw : Bytes} {ts : OpenaiToolStream}
    (hsyn : ts.syn = dsmlSyntax style) (hstate : ts.state = .betweenInvokes) :
    openaiToolStreamStep raw ts =
      let s := skipOpening ts.syn (raw.drop ts.parsePos)
      let ts := ts.atText raw s
      if startsWith ts.syn.toolCallsEnd s then
        ({ ts with
            parsePos := ts.parsePos + ts.syn.toolCallsEnd.length, active := false, state := .done },
          [], false)
      else if partialAny s ts.syn.toolCallsEnd ts.syn.invokeStart then (ts, [], false)
      else if startsWith ts.syn.invokeStart s then
        let (ts', ds) := openaiToolStartInvoke raw ts
        (ts', ds, tagRead ts ts')
      else (openaiToolStreamFail ts, [], false) := by
  rw [openaiToolStreamStep, hstate, skipOpening]
  dsimp only
  by_cases hnil : skipWs (raw.drop ts.parsePos) = []
  · obtain ⟨hpart, hend, -⟩ := tag_facts style
    have hsyn' : (ts.atText raw []).syn = dsmlSyntax style := hsyn
    rw [if_pos hnil, hnil, show skipMarkers ts.syn ([] : Bytes).length [] = [] from rfl, hsyn', hend, hpart]
    rfl
  · rw [if_neg hnil]

/-- What the loop over blanks and echoes leaves is a suffix of what is in sight. -/
theorem atText_pos {raw s : Bytes} {ts : OpenaiToolStream} (hpos : ts.parsePos ≤ raw.length)
    (hsuf : s <:+ raw.drop ts.parsePos) :
    s <:+ raw ∧ ts.parsePos ≤ raw.length - s.length ∧ raw.length - s.length + s.length = raw.length := by
  have hlen := hsuf.length_le
  rw [List.length_drop] at hlen
  exact ⟨hsuf.trans (List.drop_suffix _ _), by omega, by omega⟩

/-- A tag read whole brings another state. -/
theorem tagRead_state {before after : OpenaiToolStream} (h : after.state ≠ before.state) :
    tagRead before after = true := by
  rw [tagRead, beq_false_of_ne h, Bool.and_false]
  rfl

theorem tagRead_self (ts : OpenaiToolStream) : tagRead ts ts = false := by simp [tagRead]

section
variable {style : DsmlStyle} {whole : Bytes → Prop} {raw unseen : Bytes} {ts : OpenaiToolStream}

theorem progress_invokes {c : DsmlCall} {calls : List DsmlCall}
    (hwhole : CutsNoEcho style whole unseen) (hpos : ts.parsePos ≤ raw.length)
    (hsyn : ts.syn = dsmlSyntax style) (hactive : ts.active = true) (hstate : ts.state = .betweenInvokes)
    (h : ReadsCalls (dsmlSyntax style) whole ((raw ++ unseen).drop ts.parsePos) (c :: calls)) :
    Progress style whole (raw ++ unseen) raw unseen ts (callsDeltas ts.index (c :: calls))
      (openaiToolStreamStep raw ts) := by
  rw [List.drop_append_of_le_length hpos] at h
  cases h with
  | @call _ q tag body name r ps _ hopen hend hstart htag hname hparams hnext =>
  obtain ⟨hsuf, hopen', hs⟩ := opening_seen hwhole (tag_facts style).1 hopen _ rfl _ (Nat.le_refl _)
  rw [openaiToolStreamStep_invokes hsyn hstate, skipOpening, hsyn]
  generalize skipMarkers (dsmlSyntax style) (skipWs (raw.drop ts.parsePos)).length
    (skipWs (raw.drop ts.parsePos)) = s at hsuf hopen' hs ⊢
  obtain ⟨hsraw, hlow, hhigh⟩ := atText_pos hpos hsuf
  obtain ⟨hsee, htext⟩ := @drop_atText raw unseen _ hsraw
  have hsyn' : (ts.atText raw s).syn = dsmlSyntax style := hsyn
  have hconf : Config style whole (raw ++ unseen) (ts.atText raw s)
      (callsDeltas ts.index ({ name := name, params := ps } :: calls)) := by
    apply Config.invokes hsyn' hactive hstate
    show ReadsCalls _ _ ((raw ++ unseen).drop (raw.length - s.length)) _
    rw [htext]
    exact .call hopen' hend hstart htag hname hparams hnext
  have hle : (ts.atText raw s).parsePos ≤ raw.length := Nat.sub_le _ _
  dsimp only
  rw [hsyn']
  rcases hs with rfl | ⟨hpart, hcut, hs⟩
  · -- the next tag is reached
    rw [startsWith_unseen hend, if_neg Bool.false_ne_true]
    rcases startsWith_seen hstart with hstart' | ⟨hpart, hcut⟩
    · rw [partialAny_full hstart' (tag_exclusive style).1, if_neg Bool.false_ne_true, if_pos hstart',
        openaiToolStartInvoke, show raw.drop (ts.atText raw s).parsePos = s from hsee]
      rcases splitTag_seen htag with ⟨v, hv, hbody⟩ | ⟨hnone, hcut⟩
      · obtain ⟨htagv, htagpos⟩ := splitTag_sound hv
        have hlen := congrArg List.length htagv
        rw [List.length_append] at hlen
        rw [hv]
        dsimp only
        rw [hname]
        dsimp only
        refine ⟨⟨_, @Config.params style whole _ _ ps r calls ⟨hsyn, hactive, rfl, rfl, hnext⟩ rfl ?_, ?_,
          fun hf => ?_⟩, ?_, fun _ => .inr ?_⟩
        · show ReadsParams _ ((raw ++ unseen).drop (raw.length - s.length + tag.length)) ps r
          rw [← List.drop_drop, htext, htagv, List.append_assoc, List.drop_left, ← hbody]
          exact hparams
        · show Same ([.toolStart ts.index name] ++ (emitArgs ts.index (DsmlCall.streamed ⟨name, ps⟩) ++
            callsDeltas (ts.index + 1) calls)) ([.toolStart ts.index name] ++ (emitArgs ts.index (utf8 "\x7b") ++
              (emitArgs ts.index (paramsRest true ps) ++ callsDeltas (ts.index + 1) calls)))
          rw [streamed_eq]
          exact (Same.refl _).append (.emit _)
        · rw [show tagRead (ts.atText raw s) _ = true from
            tagRead_state (by rw [OpenaiToolStream.atText, hstate]; exact DsmlToolState.noConfusion)] at hf
          cases hf
        · show raw.length - s.length + tag.length ≤ raw.length
          omega
        · show ts.parsePos < raw.length - s.length + tag.length
          omega
      · rw [hnone]
        dsimp only
        rw [tagRead_self]
        exact .wait _ _ _ hconf hle (fun h => absurd h hcut)
    · rw [partialAny, hpart, Bool.or_true, if_pos rfl]
      exact .wait _ _ _ hconf hle (fun h => absurd h hcut)
  · -- blanks and echoes are not in sight whole
    have hno : startsWith (dsmlSyntax style).toolCallsEnd s = false := by
      rcases hs with rfl | hs
      · exact (tag_facts style).2.1
      · exact startsWith_unseen ((tag_exclusive style).2.2 _ hs).1
    rw [hno, if_neg Bool.false_ne_true, if_pos hpart]
    exact .wait _ _ _ hconf hle (fun h => absurd h hcut)

theorem ReadsParams.skipWs_eq {syn : DsmlSyntax} {p p' r : Bytes} {ps : List DsmlParam}
    (h : ReadsParams syn p ps r) (hp : skipWs p = skipWs p') : ReadsParams syn p' ps r := by
  cases h with
  | close hend =>
    rw [hp] at hend ⊢
    exact .close hend
  | param h1 h2 h3 h4 h5 h6 h7 =>
    rw [hp] at h1 h2 h3
    exact .param h1 h2 h3 h4 h5 h6 h7

theorem ReadsParams.ne_nil {style : DsmlStyle} {p r : Bytes} {ps : List DsmlParam}
    (h : ReadsParams (dsmlSyntax style) p ps r) : skipWs p ≠ [] := by
  intro hnil
  cases h with
  | close hend =>
    rw [hnil] at hend
    cases style <;> cases hend
  | param _ hstart =>
    rw [hnil] at hstart
    cases style <;> cases hstart

/-- The machine before the next tag of a call, with the blanks read. -/
theorem config_params {ps : List DsmlParam} {r s : Bytes} {calls : List DsmlCall}
    (hpos : ts.parsePos ≤ raw.length) (hs : skipWs (raw.drop ts.parsePos) = s) (hsraw : s <:+ raw)
    (hcall : InCall style whole ts r calls) (hstate : ts.state = .betweenParams)
    (h : ReadsParams (dsmlSyntax style) ((raw ++ unseen).drop ts.parsePos) ps r) :
    Config style whole (raw ++ unseen) (ts.atText raw s)
      (emitArgs ts.index (paramsRest ts.firstParam ps) ++ callsDeltas (ts.index + 1) calls) := by
  refine @Config.params style whole _ (ts.atText raw s) ps r calls ⟨hcall.syn, hcall.active, hcall.emitted, hcall.argsOpen,
    hcall.next⟩ hstate (h.skipWs_eq ?_)
  show _ = skipWs ((raw ++ unseen).drop (raw.length - s.length))
  rw [(drop_atText hsraw).2, List.drop_append_of_le_length hpos]
  rcases skipWs_seen (raw.drop ts.parsePos) unseen with ⟨hnil, heq⟩ | ⟨-, heq⟩
  · rw [heq, ← hs, hnil, List.nil_append]
  · rw [heq, ← hs, ← heq, skipWs_skipWs]

theorem partialOf_short {s lit : Bytes} (h : partialOf s lit = true) : startsWith lit s = false := by
  rw [partialOf, Bool.and_eq_true, decide_eq_true_eq] at h
  rw [Bool.eq_false_iff]
  intro hs
  obtain ⟨x, hx⟩ := startsWith_iff.mp hs
  have := congrArg List.length hx
  rw [List.length_append] at this
  omega

/-- The round at the end of a call. -/
theorem progress_callEnd {s : Bytes} {calls : List DsmlCall} (hs : skipWs (raw.drop ts.parsePos) = s)
    (hne : s ≠ []) (hsraw : s <:+ raw) (hlow : ts.parsePos ≤ raw.length - s.length)
    (hhigh : raw.length - s.length + s.length = raw.length) (hstate : ts.state = .betweenParams)
    (hcall : InCall style whole ts ((s ++ unseen).drop (dsmlSyntax style).invokeEnd.length) calls)
    (hend : startsWith (dsmlSyntax style).invokeEnd (s ++ unseen) = true)
    (hconf : Config style whole (raw ++ unseen) (ts.atText raw s)
      (emitArgs ts.index (paramsRest ts.firstParam []) ++ callsDeltas (ts.index + 1) calls)) :
    Progress style whole (raw ++ unseen) raw unseen ts
      (emitArgs ts.index (paramsRest ts.firstParam []) ++ callsDeltas (ts.index + 1) calls)
      (openaiToolStreamStep raw ts) := by
  have hsyn' : (ts.atText raw s).syn = dsmlSyntax style := hcall.syn
  have hopen' : (ts.atText raw s).argsOpen = true := hcall.argsOpen
  rw [openaiToolStreamStep, hstate]
  dsimp only
  rw [hs, hsyn', if_neg hne]
  rcases startsWith_seen hend with hend | ⟨hpart, hcut⟩
  · have hlen : (dsmlSyntax style).invokeEnd.length ≤ s.length := by
      obtain ⟨x, hx⟩ := startsWith_iff.mp hend
      have := congrArg List.length hx
      rw [List.length_append] at this
      omega
    have hpos' := (tag_facts style).2.2.2.1
    rw [if_pos hend, if_pos hopen']
    refine ⟨⟨_, @Config.next style whole _ _ calls rfl hcall.active hcall.emitted rfl ?_,
      .refl _, fun hf => by cases hf⟩, ?_, fun _ => .inr ?_⟩
    · show ReadsCalls _ _ ((raw ++ unseen).drop (raw.length - s.length + _)) _
      rw [← List.drop_drop, (drop_atText hsraw).2]
      exact hcall.next
    · show raw.length - s.length + (dsmlSyntax style).invokeEnd.length ≤ raw.length
      omega
    · show ts.parsePos < raw.length - s.length + (dsmlSyntax style).invokeEnd.length
      omega
  · rw [partialOf_short hpart, if_neg Bool.false_ne_true, partialAny, hpart, Bool.true_or, if_pos rfl]
    exact .wait _ _ _ hconf (Nat.sub_le _ _) (fun h => absurd h hcut)

/-- The round at a parameter's tag. -/
theorem progress_paramTag {s tag value key type v e r : Bytes} {ps : List DsmlParam} {calls : List DsmlCall}
    (hs : skipWs (raw.drop ts.parsePos) = s)
    (hne : s ≠ []) (hsraw : s <:+ raw) (hlow : ts.parsePos ≤ raw.length - s.length)
    (hhigh : raw.length - s.length + s.length = raw.length) (hstate : ts.state = .betweenParams)
    (hcall : InCall style whole ts r calls)
    (hno : startsWith (dsmlSyntax style).invokeEnd (s ++ unseen) = false)
    (hstart : startsWith (dsmlSyntax style).paramStart (s ++ unseen) = true)
    (htag : splitTag (s ++ unseen) = some (tag, value)) (hkey : dsmlAttr tag (utf8 "name") = some key)
    (htype : dsmlAttr tag (utf8 "string") = some type)
    (hend : strstr (dsmlSyntax style).paramEnd value = some (v, e))
    (hps : ReadsParams (dsmlSyntax style) (e.drop (dsmlSyntax style).paramEnd.length) ps r)
    (hconf : Config style whole (raw ++ unseen) (ts.atText raw s)
      (emitArgs ts.index (paramsRest ts.firstParam (⟨key, type, v⟩ :: ps)) ++
        callsDeltas (ts.index + 1) calls)) :
    Progress style whole (raw ++ unseen) raw unseen ts
      (emitArgs ts.index (paramsRest ts.firstParam (⟨key, type, v⟩ :: ps)) ++
        callsDeltas (ts.index + 1) calls) (openaiToolStreamStep raw ts) := by
  have hsyn' : (ts.atText raw s).syn = dsmlSyntax style := hcall.syn
  obtain ⟨hsee, htext⟩ := @drop_atText raw unseen _ hsraw
  rw [openaiToolStreamStep, hstate]
  dsimp only
  rw [hs, hsyn', if_neg hne, startsWith_unseen hno, if_neg Bool.false_ne_true]
  rcases startsWith_seen hstart with hstart' | ⟨hpart, hcut⟩
  · rw [partialAny_full hstart' (tag_exclusive style).2.1, if_neg Bool.false_ne_true, if_pos hstart',
      openaiToolStartParam, show raw.drop (ts.atText raw s).parsePos = s from hsee]
    rcases splitTag_seen htag with ⟨w, hw, hvalue⟩ | ⟨hnone, hcut⟩
    · obtain ⟨htagw, htagpos⟩ := splitTag_sound hw
      have hlen := congrArg List.length htagw
      rw [List.length_append] at hlen
      rw [hw]
      dsimp only
      rw [hkey, htype]
      dsimp only
      refine ⟨⟨_, @Config.value style whole _ _ v e ps r calls ⟨hcall.syn, hcall.active,
        hcall.emitted, hcall.argsOpen, hcall.next⟩ rfl rfl ?_ hps, ?_, fun hf => ?_⟩, ?_, fun _ => .inr ?_⟩
      · show strstr _ ((raw ++ unseen).drop (raw.length - s.length + tag.length)) = _
        rw [← List.drop_drop, htext, htagw, List.append_assoc, List.drop_left, ← hvalue]
        exact hend
      · show Same _ (openaiToolEmitParamPrefix _ _ _ ++ (emitArgs ts.index
          (valueRest (decide (type = utf8 "true")) v ++ paramsRest false ps) ++
            callsDeltas (ts.index + 1) calls))
        have htext : paramsRest ts.firstParam ({ key := key, type := type, raw := v } :: ps) =
            ((if ts.firstParam then [] else utf8 ",") ++ jsonEscape key ++ utf8 ":" ++
              if decide (type = utf8 "true") then utf8 "\"" else []) ++
            (valueRest (decide (type = utf8 "true")) v ++ paramsRest false ps) := by
          rw [paramsRest, param_streamed_eq]
          simp only [List.append_assoc, decide_eq_true_eq]
        rw [htext]
        exact .emit _
      · rw [show tagRead (ts.atText raw s) _ = true from
          tagRead_state (by rw [OpenaiToolStream.atText, hstate]; exact DsmlToolState.noConfusion)] at hf
        cases hf
      · show raw.length - s.length + tag.length ≤ raw.length
        omega
      · show ts.parsePos < raw.length - s.length + tag.length
        omega
    · rw [hnone]
      dsimp only
      rw [tagRead_self]
      exact .wait _ _ _ hconf (Nat.sub_le _ _) (fun h => absurd h hcut)
  · rw [partialAny, hpart, Bool.or_true, if_pos rfl]
    exact .wait _ _ _ hconf (Nat.sub_le _ _) (fun h => absurd h hcut)

theorem progress_params {ps : List DsmlParam} {r : Bytes} {calls : List DsmlCall}
    (hpos : ts.parsePos ≤ raw.length) (hcall : InCall style whole ts r calls)
    (hstate : ts.state = .betweenParams)
    (h : ReadsParams (dsmlSyntax style) ((raw ++ unseen).drop ts.parsePos) ps r) :
    Progress style whole (raw ++ unseen) raw unseen ts
      (emitArgs ts.index (paramsRest ts.firstParam ps) ++ callsDeltas (ts.index + 1) calls)
      (openaiToolStreamStep raw ts) := by
  have hseen := skipWs_seen (raw.drop ts.parsePos) unseen
  obtain ⟨s, hs⟩ : ∃ s, skipWs (raw.drop ts.parsePos) = s := ⟨_, rfl⟩
  have hsuf : s <:+ raw.drop ts.parsePos := hs ▸ List.dropWhile_suffix _
  obtain ⟨hsraw, hlow, hhigh⟩ := atText_pos hpos hsuf
  have hconf := config_params hpos hs hsraw hcall hstate h
  rw [List.drop_append_of_le_length hpos] at h
  rw [hs] at hseen
  rcases hseen with ⟨rfl, heq⟩ | ⟨hne, heq⟩
  · rw [openaiToolStreamStep, hstate]
    dsimp only
    rw [if_pos hs, hs]
    refine .wait _ _ _ hconf (Nat.sub_le _ _) (fun hcut => absurd ?_ h.ne_nil)
    rw [heq, hcut, skipWs_nil]
  · cases h with
    | close hend =>
      rw [heq] at hend hcall
      exact progress_callEnd hs hne hsraw hlow hhigh hstate hcall hend hconf
    | param hno hstart htag hkey htype hend hps =>
      rw [heq] at hno hstart htag
      exact progress_paramTag hs hne hsraw hlow hhigh hstate hcall hno hstart htag hkey htype hend hps hconf

theorem paramEnd_shape (style : DsmlStyle) :
    ∃ l, (dsmlSyntax style).paramEnd = 60 :: l ∧ (60 : UInt8) ∉ l :=
  ⟨(dsmlSyntax style).paramEnd.tail, by cases style <;> decide, by cases style <;> decide⟩

/-- A value goes out up to any place that cuts no entity. -/
theorem valueRest_cut {isString : Bool} {v : Bytes} {k : Nat}
    (h : isString = true → dsmlUnescapeText v =
      dsmlUnescapeText (v.take k) ++ dsmlUnescapeText (v.drop k)) :
    valueRest isString v =
      (if isString then jsonEscapeFragment (dsmlUnescapeText (v.take k)) else v.take k) ++
        valueRest isString (v.drop k) := by
  cases isString with
  | true =>
    simp only [valueRest, if_true, h rfl, jsonEscapeFragment, List.flatMap_append, List.append_assoc]
  | false => simp [valueRest]

theorem progress_value {v e r : Bytes} {ps : List DsmlParam} {calls : List DsmlCall}
    (hpos : ts.parsePos ≤ raw.length) (hcall : InCall style whole ts r calls)
    (hstate : ts.state = .paramValue) (hfirst : ts.firstParam = false)
    (hend : strstr (dsmlSyntax style).paramEnd ((raw ++ unseen).drop ts.parsePos) = some (v, e))
    (hps : ReadsParams (dsmlSyntax style) (e.drop (dsmlSyntax style).paramEnd.length) ps r) :
    Progress style whole (raw ++ unseen) raw unseen ts
      (emitArgs ts.index (valueRest ts.paramIsString v ++ paramsRest false ps) ++
        callsDeltas (ts.index + 1) calls) (openaiToolStreamStep raw ts) := by
  have hpos' := (tag_facts style).2.2.2.2
  rw [openaiToolStreamStep, hstate]
  dsimp only
  rw [hcall.syn]
  cases hsee : strstr (dsmlSyntax style).paramEnd (raw.drop ts.parsePos) with
  | some b =>
    obtain ⟨a, x⟩ := b
    have hseen := strstr_seen unseen hsee
    rw [← List.drop_append_of_le_length hpos, hend] at hseen
    cases hseen
    obtain ⟨hraw, htag⟩ := strstr_sound hsee
    have hlen := congrArg List.length hraw
    obtain ⟨y, hy⟩ := startsWith_iff.mp htag
    rw [hy, List.length_append, List.length_append, List.length_drop] at hlen
    dsimp only [openaiToolFinishParam]
    rw [hcall.syn]
    refine ⟨⟨_, @Config.params style whole _ _ ps r calls ⟨rfl, hcall.active, hcall.emitted, hcall.argsOpen,
      hcall.next⟩ rfl ?_, ?_, fun hf => by cases hf⟩, ?_, fun _ => .inr ?_⟩
    · have hdrop : (raw ++ unseen).drop (ts.parsePos + v.length + (dsmlSyntax style).paramEnd.length) =
          (x ++ unseen).drop (dsmlSyntax style).paramEnd.length := by
        rw [← List.drop_drop, ← List.drop_drop, List.drop_append_of_le_length hpos, hraw, List.append_assoc,
          List.drop_left]
      show ReadsParams _ ((raw ++ unseen).drop _) ps r
      rw [hdrop]
      exact hps
    · have hvalue : Same (emitArgs ts.index (valueRest ts.paramIsString v ++ paramsRest false ps))
          (openaiToolEmitValue ts v ++ emitArgs ts.index (if ts.paramIsString then utf8 "\"" else []) ++
            emitArgs ts.index (paramsRest ts.firstParam ps)) := by
        have htext : valueRest ts.paramIsString v =
            (if ts.paramIsString then jsonEscapeFragment (dsmlUnescapeText v) else v) ++
              if ts.paramIsString then utf8 "\"" else [] := by
          rw [valueRest]
          cases ts.paramIsString <;> simp
        rw [hfirst, htext]
        exact (same_emitArgs _ _ _).trans ((same_emitArgs _ _ _).append (.refl _))
      have h := hvalue.append (.refl (callsDeltas (ts.index + 1) calls))
      rw [List.append_assoc] at h
      exact h
    · show ts.parsePos + v.length + (dsmlSyntax style).paramEnd.length ≤ raw.length
      omega
    · show ts.parsePos < ts.parsePos + v.length + (dsmlSyntax style).paramEnd.length
      omega
  | none =>
    obtain ⟨l, hl, h60⟩ := paramEnd_shape style
    rw [List.drop_append_of_le_length hpos] at hend
    have hcut := strstr_cut hend hsee
    obtain ⟨hraw, htag⟩ := strstr_sound hend
    obtain ⟨y, hy⟩ := startsWith_iff.mp htag
    rw [hl] at hsee hy
    obtain ⟨hk, hkv, htake, hent⟩ := @toolParamValue_limit l v y
      (raw.drop ts.parsePos) ts.paramIsString h60 ⟨unseen, by rw [hraw, hy]⟩ hsee
    rw [hl]
    generalize toolParamValueStreamSafeLen (60 :: l) ts.paramIsString (raw.drop ts.parsePos) = k at *
    rw [List.length_drop] at hk
    dsimp only
    refine ⟨⟨_, @Config.value style whole _ _ (v.drop k) e ps r calls ⟨rfl, hcall.active,
      hcall.emitted, hcall.argsOpen, hcall.next⟩ rfl hfirst ?_ hps, ?_, fun _ h => absurd h hcut⟩, ?_,
      fun hf => by cases hf⟩
    · show strstr _ ((raw ++ unseen).drop (ts.parsePos + k)) = _
      rw [← List.drop_drop, List.drop_append_of_le_length hpos]
      exact strstr_drop hend hkv
    · show Same _ (emitArgs ts.index _ ++ (emitArgs ts.index _ ++ callsDeltas (ts.index + 1) calls))
      rw [htake, valueRest_cut hent, List.append_assoc]
      exact .emit _
    · show ts.parsePos + k ≤ raw.length
      omega

/-- A quiet machine sends nothing and stays quiet. -/
theorem quiet_step (hpos : ts.parsePos ≤ raw.length) (hactive : ts.active = true)
    (h : Quiet style (raw ++ unseen) ts) : ∃ ts' again, openaiToolStreamStep raw ts = (ts', [], again) ∧
      Quiet style (raw ++ unseen) ts' ∧ ts'.emittedAny = ts.emittedAny ∧ ts'.parsePos ≤ raw.length ∧
      (again = true → ts'.active = false) := by
  rcases h with h | ⟨hsyn, hstate, hno⟩
  · rw [hactive] at h
    cases h
  rw [List.drop_append_of_le_length hpos] at hno
  obtain ⟨hsuf, hopen, hs⟩ := opening_seen (P := fun _ => True) (fun _ _ _ _ => .inr trivial) trivial
    (@opening_skip style (raw.drop ts.parsePos ++ unseen)) _ rfl _ (Nat.le_refl _)
  rw [openaiToolStreamStep_invokes hsyn hstate, skipOpening, hsyn]
  generalize skipMarkers (dsmlSyntax style) (skipWs (raw.drop ts.parsePos)).length
    (skipWs (raw.drop ts.parsePos)) = s at hsuf hopen hs ⊢
  obtain ⟨hsraw, hlow, hhigh⟩ := atText_pos hpos hsuf
  obtain ⟨hsee, htext⟩ := @drop_atText raw unseen _ hsraw
  have hsyn' : (ts.atText raw s).syn = dsmlSyntax style := hsyn
  have hle : (ts.atText raw s).parsePos ≤ raw.length := Nat.sub_le _ _
  have hquiet : Quiet style (raw ++ unseen) (ts.atText raw s) := by
    refine .inr ⟨hsyn, hstate, ?_⟩
    show opensCall _ ((raw ++ unseen).drop (raw.length - s.length)) = false
    rw [htext, opensCall, hopen.skipOpening]
    exact hno
  dsimp only
  rw [hsyn']
  split
  · next hend =>
    obtain ⟨x, hx⟩ := startsWith_iff.mp hend
    have hlen := congrArg List.length hx
    rw [List.length_append] at hlen
    refine ⟨_, _, rfl, .inl rfl, rfl, ?_, fun hf => by cases hf⟩
    show raw.length - s.length + (dsmlSyntax style).toolCallsEnd.length ≤ raw.length
    omega
  · split
    · exact ⟨_, _, rfl, hquiet, rfl, hle, fun hf => by cases hf⟩
    · split
      · next hinvoke =>
        -- the tag in sight is the next one of the text, and it names no call
        have hq : s ++ unseen = skipOpening (dsmlSyntax style) (raw.drop ts.parsePos ++ unseen) := by
          rcases hs with hs | ⟨-, -, rfl | hmark⟩
          · exact hs
          · cases style <;> cases hinvoke
          · rw [startsWith_unseen ((tag_exclusive style).2.2 _ hmark).2] at hinvoke
            cases hinvoke
        rw [opensCall, ← hq] at hno
        have hinvoke' : startsWith (dsmlSyntax style).invokeStart (s ++ unseen) = true := by
          obtain ⟨x, hx⟩ := startsWith_iff.mp hinvoke
          rw [hx, List.append_assoc]
          exact startsWith_append _ _
        rw [openaiToolStartInvoke, show raw.drop (ts.atText raw s).parsePos = s from hsee]
        cases hsplit : splitTag s with
        | none =>
          dsimp only
          rw [tagRead_self]
          exact ⟨_, _, rfl, hquiet, rfl, hle, fun hf => by cases hf⟩
        | some b =>
          obtain ⟨tag, v⟩ := b
          have hwhole : splitTag (s ++ unseen) = some (tag, v ++ unseen) := by
            obtain ⟨⟨a, r⟩, hr, he⟩ := Option.map_eq_some_iff.mp hsplit
            obtain ⟨x, hx⟩ := startsWith_iff.mp (strstr_sound hr).2
            cases he
            rw [splitTag, show strchr 62 (s ++ unseen) = _ from strstr_seen unseen hr, hx]
            rfl
          rw [hinvoke', hwhole, Option.bind_some] at hno
          dsimp only at hno ⊢
          cases hname : dsmlAttr tag (utf8 "name") with
          | some name =>
            rw [hname] at hno
            cases hno
          | none => exact ⟨_, _, rfl, .inl rfl, rfl, hle, fun _ => rfl⟩
      · exact ⟨_, _, rfl, .inl rfl, rfl, hle, fun hf => by cases hf⟩

/-- **One round.** -/
theorem progress_step {rem : List ChatDelta}
    (hwhole : CutsNoEcho style whole unseen) (hpos : ts.parsePos ≤ raw.length) (hactive : ts.active = true)
    (h : Config style whole (raw ++ unseen) ts rem) :
    Progress style whole (raw ++ unseen) raw unseen ts rem (openaiToolStreamStep raw ts) := by
  cases h with
  | invokes hsyn _ hstate h => exact progress_invokes hwhole hpos hsyn hactive hstate h
  | params hcall hstate h => exact progress_params hpos hcall hstate h
  | value hcall hstate hfirst hend hps => exact progress_value hpos hcall hstate hfirst hend hps
  | closed hemitted h =>
    obtain ⟨ts', again, hstep, hquiet, hsame, hle, hstop⟩ := quiet_step hpos hactive h
    rw [hstep]
    exact ⟨⟨[], .closed (hsame.trans hemitted) hquiet, .refl _, fun _ _ => rfl⟩, hle, fun hf => .inl (hstop hf)⟩

end

/-! ## An update -/

section
variable {style : DsmlStyle} {whole : Bytes → Prop} {full : Bytes} {ts : OpenaiToolStream}
  {rem : List ChatDelta}

theorem Config.inactive (h : Config style whole full ts rem) (hactive : ts.active = false) :
    rem = [] := by
  cases h with
  | invokes _ h => rw [hactive] at h; cases h
  | params hcall => have h := hcall.active; rw [hactive] at h; cases h
  | value hcall => have h := hcall.active; rw [hactive] at h; cases h
  | closed => rfl

/-- At the end of the text nothing is left to send. -/
theorem Config.atEnd (h : Config style whole full ts rem) (hend : full.drop ts.parsePos = []) :
    rem = [] := by
  cases h with
  | invokes _ _ _ h =>
    rw [hend] at h
    cases h with
    | call hopen _ hstart =>
      obtain ⟨hlen, -⟩ := hopen.length
      obtain rfl := List.length_eq_zero_iff.mp (Nat.le_zero.mp hlen)
      cases style <;> cases hstart
  | params _ _ h =>
    rw [hend] at h
    exact absurd rfl h.ne_nil
  | value _ _ _ h =>
    obtain ⟨l, hl, -⟩ := paramEnd_shape style
    rw [hend, hl] at h
    cases h
  | closed => rfl

theorem openaiToolStreamLoop_stopped {raw : Bytes} (hstop : ts.active = false) (fuel : Nat) :
    openaiToolStreamLoop raw fuel ts = (ts, []) := by
  cases fuel with
  | zero => rfl
  | succ fuel => rw [openaiToolStreamLoop, hstop, Bool.false_and, if_neg Bool.false_ne_true]

theorem openaiToolStreamLoop_config {raw unseen : Bytes} (hwhole : CutsNoEcho style whole unseen) :
    ∀ (fuel : Nat) {ts : OpenaiToolStream} {rem : List ChatDelta}, raw.length - ts.parsePos ≤ fuel →
      ts.parsePos ≤ raw.length → Config style whole (raw ++ unseen) ts rem →
      ∃ rem', Config style whole (raw ++ unseen) (openaiToolStreamLoop raw fuel ts).1 rem' ∧
        Same rem ((openaiToolStreamLoop raw fuel ts).2 ++ rem') ∧
        (openaiToolStreamLoop raw fuel ts).1.parsePos ≤ raw.length ∧ (unseen = [] → rem' = []) := by
  -- where the loop does not start, the machine has stopped or seen everything
  have hidle : ∀ {ts : OpenaiToolStream} {rem : List ChatDelta}, ts.parsePos ≤ raw.length →
      Config style whole (raw ++ unseen) ts rem → ¬(ts.active && decide (ts.parsePos < raw.length)) = true →
      unseen = [] → rem = [] := by
    intro ts rem hpos h hstop hu
    rw [Bool.and_eq_true, decide_eq_true_eq, not_and] at hstop
    cases hactive : ts.active with
    | false => exact h.inactive hactive
    | true =>
      apply h.atEnd
      rw [hu, List.append_nil, List.drop_eq_nil_iff]
      have := hstop hactive
      omega
  intro fuel
  induction fuel with
  | zero =>
    intro ts rem hfuel hpos h
    refine ⟨rem, h, .refl _, hpos, hidle hpos h ?_⟩
    rw [Bool.and_eq_true, decide_eq_true_eq]
    omega
  | succ fuel ih =>
    intro ts rem hfuel hpos h
    rw [openaiToolStreamLoop]
    split
    · next hrun =>
      rw [Bool.and_eq_true, decide_eq_true_eq] at hrun
      have hstep := progress_step hwhole hpos hrun.1 h
      generalize openaiToolStreamStep raw ts = res at hstep ⊢
      obtain ⟨ts', ds, again⟩ := res
      obtain ⟨⟨rem', h', hsame, hdone⟩, hle, hmoved⟩ := hstep
      cases again with
      | false => exact ⟨rem', h', hsame, hle, hdone rfl⟩
      | true =>
        dsimp only at h' hsame hle hmoved ⊢
        rcases hmoved rfl with hstop | hmoved
        · rw [openaiToolStreamLoop_stopped hstop, List.append_nil]
          exact ⟨rem', h', hsame, hle, fun _ => h'.inactive hstop⟩
        · obtain ⟨rem'', h'', hsame', hle', hdone'⟩ := ih (by omega) hle h'
          refine ⟨rem'', h'', hsame.trans ?_, hle', hdone'⟩
          have := (Same.refl ds).append hsame'
          rw [List.append_assoc]
          exact this
    · next hstop => exact ⟨rem, h, .refl _, hpos, hidle hpos h hstop⟩

/-- **One update** sends a part of what is left, and all of it at the end of the text. -/
theorem openaiToolStreamUpdate_config {raw unseen : Bytes}
    (hwhole : CutsNoEcho style whole unseen) (hpos : ts.parsePos ≤ raw.length) (h : Config style whole (raw ++ unseen) ts rem) :
    ∃ rem', Config style whole (raw ++ unseen) (openaiToolStreamUpdate raw ts).1 rem' ∧
      Same rem ((openaiToolStreamUpdate raw ts).2 ++ rem') ∧
      (openaiToolStreamUpdate raw ts).1.parsePos ≤ raw.length ∧ (unseen = [] → rem' = []) :=
  openaiToolStreamLoop_config hwhole _ (Nat.le_refl _) hpos h

/-- A quiet machine sends nothing over an update. -/
theorem openaiToolStreamUpdate_quiet {raw unseen : Bytes} (hpos : ts.parsePos ≤ raw.length)
    (h : Quiet style (raw ++ unseen) ts) :
    (openaiToolStreamUpdate raw ts).2 = [] ∧ Quiet style (raw ++ unseen) (openaiToolStreamUpdate raw ts).1 ∧
      (openaiToolStreamUpdate raw ts).1.emittedAny = ts.emittedAny ∧
      (openaiToolStreamUpdate raw ts).1.parsePos ≤ raw.length := by
  rw [openaiToolStreamUpdate]
  generalize raw.length - ts.parsePos = fuel
  cases fuel with
  | zero => exact ⟨rfl, h, rfl, hpos⟩
  | succ fuel =>
    rw [openaiToolStreamLoop]
    split
    · next hrun =>
      rw [Bool.and_eq_true, decide_eq_true_eq] at hrun
      obtain ⟨ts', again, hstep, hquiet, hsame, hle, hstop⟩ := quiet_step hpos hrun.1 h
      rw [hstep]
      cases again with
      | false => exact ⟨rfl, hquiet, hsame, hle⟩
      | true =>
        dsimp only
        rw [openaiToolStreamLoop_stopped (hstop rfl)]
        exact ⟨rfl, hquiet, hsame, hle⟩
    · exact ⟨rfl, h, rfl, hpos⟩

end

end Ds4.Server
