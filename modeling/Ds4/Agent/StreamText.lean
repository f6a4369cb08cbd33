import Ds4.Agent.DsmlStream

/- The stream of the assistant's text in ds4_agent.c: what the user sees of it, what is
   thinking, and which bytes reach the parser of tool calls.

   Correspondence (C ↔ Lean):
     `agent_stream_renderer`                 ↔ `AgentStream`
     `agent_dsml_marker_detector_feed`       ↔ `detectorFeed`
     `agent_stream_dsml_start_match`         ↔ `dsmlStartMatch`
     `agent_stream_finish_ignored_dsml`      ↔ `finishIgnoredDsml`
     `agent_stream_malformed_dsml`           ↔ `malformedDsml`
     `agent_stream_feed_dsml_byte`           ↔ `feedDsmlByte`
     `agent_stream_start_dsml`               ↔ `startDsml`
     `agent_stream_flush_start_tail`         ↔ `flushStartTail`, its loop `flushBytes`
     `agent_stream_note_thinking_dsml_byte`  ↔ `noteThinkingDsmlByte`
     `agent_stream_note_plain_dsml_byte`     ↔ `notePlainDsmlByte`
     `agent_stream_normal_byte`              ↔ `normalByte`
     `agent_stream_text`                     ↔ `streamText`, a round of its loop `streamTake`
   What the terminal makes of the text is left out, and what is shown of a call while it
   is written; so is the check of an edit before its call is complete.

   What is proved: it does not matter how the text is cut into tokens
   (`streamed_pieces`, `stream_text_pieces`). -/
namespace Ds4.Agent
open Ds4 Bytes Resume

/-- What the stream gives the terminal. -/
inductive Shown where
  | char (c : UInt8)
  | thinking (opened : Bool)
  | toolStarted
  | toolFinished (status : Bytes)
  | ignored (msg : Bytes)
  | invalid (msg : Bytes)
deriving DecidableEq

/-- The renderer without `pending`, which stands beside it. -/
structure AgentStream where
  parser : AgentDsmlParser := {}
  inThink : Bool
  dsmlActive : Bool := false
  dsmlIgnored : Bool := false
  dsmlStartTail : Bytes := []
  plainDsml : Bytes := []
  thinkDsml : Bytes := []
  dsmlInThink : Bool := false
  dsmlInThinkReported : Bool := false
  postThinkGap : Bool := false
  shown : List Shown := []
deriving DecidableEq

def thinkTag (opened : Bool) : Bytes := utf8 (if opened then "<think>" else "</think>")

/-! ## Markers -/

def dsmlMarkers : List Bytes := [utf8 "｜DSML｜", utf8 "|DSML|", utf8 "<DSML｜", utf8 "</DSML｜"]

/-- One byte more for a detector: its tail, and whether a marker ends here. -/
def detectorFeed (tail : Bytes) (c : UInt8) : Bytes × Bool :=
  let tail := tailPush 32 tail c
  (tail, dsmlMarkers.any fun m => m.isSuffixOf tail)

/-- The forms a block may start with, and whether the form opens a call too. -/
def dsmlStartForms : List (Bytes × Bool) :=
  [(utf8 "<｜DSML｜tool_calls>", false), (utf8 "<DSML｜tool_calls>", false),
    (utf8 "<｜DSML｜invoke", true), (utf8 "<DSML｜invoke", true)]

/-- Whether the tail starts a form; then, whether it is all of it. -/
def dsmlStartMatch (tail : Bytes) : Option (Bool × Bool) :=
  (dsmlStartForms.find? fun f => tail.isPrefixOf f.1).map fun f => (tail.length = f.1.length, f.2)

/-! ## Blocks -/

def inThinkMsg : Bytes := utf8 "tool calling is not allowed inside <think></think>"

def finishIgnoredDsml (s : AgentStream) (msg : Bytes) : AgentStream :=
  { s with
    dsmlInThink := true
    dsmlInThinkReported := true
    shown := s.shown ++ [.ignored msg]
    parser := {}
    dsmlActive := false
    dsmlIgnored := false }

def malformedDsml (s : AgentStream) (msg : Bytes) : AgentStream :=
  if s.parser.state = .error then s
  else { s with parser := agentDsmlSetError s.parser msg, shown := s.shown ++ [.invalid msg] }

def invalidStatus (error : Bytes) : Bytes :=
  utf8 "[invalid tool call: " ++ (if error = [] then utf8 "parse error" else error) ++ utf8 "]\n"

/-- A byte of a block. -/
def feedDsmlByte (s : AgentStream) (c : UInt8) : AgentStream :=
  let s := { s with parser := agentDsmlFeed s.parser [c] }
  if s.parser.state = .done then
    if s.dsmlIgnored then finishIgnoredDsml s inThinkMsg
    else { s with dsmlActive := false, shown := s.shown ++ [.toolFinished []] }
  else if s.parser.state = .error then
    if s.dsmlIgnored then finishIgnoredDsml s (utf8 "malformed tool call inside <think></think>")
    else { s with dsmlActive := false, shown := s.shown ++ [.toolFinished (invalidStatus s.parser.error)] }
  else s

def startDsml (s : AgentStream) (ignored : Bool) : AgentStream :=
  { s with
    dsmlActive := true
    dsmlIgnored := ignored
    dsmlInThink := s.dsmlInThink || ignored
    dsmlStartTail := []
    postThinkGap := false
    parser := agentDsmlStart s.parser
    shown := if ignored then s.shown else s.shown ++ [.toolStarted] }

/-! ## Text outside of blocks -/

def notePlainDsmlByte (s : AgentStream) (c : UInt8) : AgentStream :=
  if s.parser.state = .error then s
  else if s.dsmlActive || s.inThink || s.dsmlInThink then s
  else
    let d := detectorFeed s.plainDsml c
    let s := { s with plainDsml := d.1 }
    if d.2 then malformedDsml s (utf8 "DSML markup outside a valid tool_calls block") else s

def noteThinkingDsmlByte (s : AgentStream) (c : UInt8) : AgentStream :=
  if !s.inThink || s.dsmlInThink then s
  else
    let d := detectorFeed s.thinkDsml c
    { s with thinkDsml := d.1, dsmlInThink := d.2 }

/-- A byte that goes to the terminal. -/
def writeByte (s : AgentStream) (c : UInt8) : AgentStream :=
  notePlainDsmlByte { s with shown := s.shown ++ [.char c] } c

/-- Bytes that were held back; an error ends them. -/
def flushBytes : Bytes → AgentStream → AgentStream
  | [], s => s
  | c :: cs, s =>
    let s := writeByte s c
    if s.parser.state = .error then s else flushBytes cs s

def flushStartTail (s : AgentStream) : AgentStream :=
  if s.dsmlStartTail = [] then s
  else { flushBytes s.dsmlStartTail { s with postThinkGap := false } with dsmlStartTail := [] }

def canonicalInvoke : Bytes := utf8 "<｜DSML｜invoke"

/-- The byte `c` may start a block or go on with the start that is held back. -/
def startByte (s : AgentStream) (c : UInt8) : AgentStream :=
  let tail := if s.dsmlStartTail.length < 64 then s.dsmlStartTail ++ [c] else s.dsmlStartTail
  let s := { s with dsmlStartTail := tail }
  match dsmlStartMatch tail with
  | some (complete, implicitInvoke) =>
    if complete then
      let s := startDsml s s.inThink
      if implicitInvoke then canonicalInvoke.foldl feedDsmlByte s else s
    else s
  | none =>
    if 1 < tail.length ∧ tail.getLast? = some 60 then
      let s := flushBytes tail.dropLast { s with postThinkGap := false }
      { s with dsmlStartTail := if s.parser.state = .error then [] else [60] }
    else flushStartTail s

def normalByte (s : AgentStream) (c : UInt8) : AgentStream :=
  if s.parser.state = .error then s
  else
    let s := noteThinkingDsmlByte s c
    -- the white space right behind the thinking is not shown
    if s.postThinkGap && tagSpace c then s
    else if s.dsmlStartTail ≠ [] ∨ c = 60 then startByte s c
    else writeByte { s with postThinkGap := false } c

/-! ## The loop -/

def openThink (s : AgentStream) : AgentStream :=
  let s := flushStartTail s
  { s with postThinkGap := false, inThink := true, shown := s.shown ++ [.thinking true] }

def closeThink (s : AgentStream) : AgentStream :=
  let s := flushStartTail s
  { s with inThink := false, postThinkGap := true, shown := s.shown ++ [.thinking false] }

def streamByte (s : AgentStream) (c : UInt8) : AgentStream :=
  if s.dsmlActive then feedDsmlByte s c else normalByte s c

/-- `bytes_is_partial_prefix`. -/
def partialPrefix (lit r : Bytes) : Bool := decide (r.length < lit.length) && r.isPrefixOf lit

/-- One round of the loop; `finish` takes what may be the beginning of a tag as text. -/
def streamTake (finish : Bool) (s : AgentStream) : Bytes → Option (AgentStream × Nat)
  | [] => none
  | c :: r =>
    if !s.dsmlActive && startsWith (thinkTag true) (c :: r) then some (openThink s, (thinkTag true).length)
    else if !s.dsmlActive && startsWith (thinkTag false) (c :: r) then some (closeThink s, (thinkTag false).length)
    else if !finish && !s.dsmlActive && c == 60 &&
        (partialPrefix (thinkTag true) (c :: r) || partialPrefix (thinkTag false) (c :: r)) then none
    else some (streamByte s c, 1)

/-- The loop, `fuel` rounds at most. -/
def streamLoop (finish : Bool) : Nat → AgentStream → Bytes → AgentStream × Bytes
  | 0, s, r => (s, r)
  | fuel + 1, s, r =>
    match streamTake finish s r with
    | none => (s, r)
    | some (t, n) => streamLoop finish fuel t (r.drop n)

/-- The end of the stream: what is held back is text, a block that is open is cut off. -/
def finishStream (s : AgentStream) : AgentStream :=
  let s := { flushStartTail s with postThinkGap := false }
  let s := if s.dsmlActive then
      if s.dsmlIgnored then finishIgnoredDsml s inThinkMsg
      else { s with dsmlActive := false, shown := s.shown ++ [.toolFinished (utf8 "[tool call interrupted]\n")] }
    else s
  if s.dsmlInThink && !s.dsmlInThinkReported then finishIgnoredDsml s inThinkMsg else s

/-- `agent_stream_text`. A round takes a byte or ends the loop, so the length is enough. -/
def streamText (finish : Bool) (c : AgentStream × Bytes) (text : Bytes) : AgentStream × Bytes :=
  let r := streamLoop finish (c.2 ++ text).length c.1 (c.2 ++ text)
  (if finish then finishStream r.1 else r.1, if r.2.length < 16 then r.2 else [])

/-! ## The stream as a reader -/

theorem thinkTag_eq (opened : Bool) : ∃ t, thinkTag opened = 60 :: t ∧ 60 ∉ t ∧ t.length < 8 := by
  cases opened
  · exact ⟨(thinkTag false).tail, by decide +kernel, by decide +kernel, by decide +kernel⟩
  · exact ⟨(thinkTag true).tail, by decide +kernel, by decide +kernel, by decide +kernel⟩

/-- A tag stands here when more bytes follow, or it may still come. -/
theorem startsWith_more_cases {lit r x : Bytes} (h : startsWith lit (r ++ x) = true) :
    startsWith lit r = true ∨ partialPrefix lit r = true := by
  by_cases hlen : lit.length ≤ r.length
  · exact .inl (by
      rw [startsWith, List.isPrefixOf_iff_prefix] at h ⊢
      exact List.prefix_of_prefix_length_le h (List.prefix_append r x) hlen)
  · refine .inr ?_
    rw [startsWith, List.isPrefixOf_iff_prefix] at h
    rw [partialPrefix, Bool.and_eq_true, decide_eq_true_iff, List.isPrefixOf_iff_prefix]
    exact ⟨by omega, List.prefix_of_prefix_length_le (List.prefix_append r x) h (by omega)⟩

/-- What a round makes of the text. -/
inductive Taken (finish : Bool) (s : AgentStream) : Bytes → AgentStream → Nat → Prop
  | opened {r : Bytes} : s.dsmlActive = false → Taken finish s (thinkTag true ++ r) (openThink s) (thinkTag true).length
  | closed {r : Bytes} : s.dsmlActive = false → Taken finish s (thinkTag false ++ r) (closeThink s) (thinkTag false).length
  | byte {c : UInt8} {r : Bytes} :
      (s.dsmlActive = false → ∀ o, startsWith (thinkTag o) (c :: r) = false ∧
        (finish = false → partialPrefix (thinkTag o) (c :: r) = false)) →
      Taken finish s (c :: r) (streamByte s c) 1

theorem partialPrefix_head {o : Bool} {c : UInt8} {r : Bytes} (h : partialPrefix (thinkTag o) (c :: r) = true) : c = 60 := by
  obtain ⟨t, ht, -⟩ := thinkTag_eq o
  rw [partialPrefix, ht, Bool.and_eq_true, List.isPrefixOf_iff_prefix, List.cons_prefix_cons] at h
  exact h.2.1

theorem tags_apart (r : Bytes) : startsWith (thinkTag true) (thinkTag false ++ r) = false := rfl

theorem taken_iff {finish : Bool} {s t : AgentStream} {r : Bytes} {n : Nat} :
    streamTake finish s r = some (t, n) ↔ Taken finish s r t n := by
  constructor
  · intro h
    cases r with
    | nil => cases h
    | cons c r =>
      rw [streamTake] at h
      split at h
      · next hopen =>
        rw [Bool.and_eq_true, Bool.not_eq_true'] at hopen
        obtain ⟨k, hk⟩ := startsWith_iff.mp hopen.2
        obtain ⟨rfl, rfl⟩ := Prod.mk.inj (Option.some.inj h)
        rw [hk]
        exact .opened hopen.1
      · next hopen =>
        split at h
        · next hclose =>
          rw [Bool.and_eq_true, Bool.not_eq_true'] at hclose
          obtain ⟨k, hk⟩ := startsWith_iff.mp hclose.2
          obtain ⟨rfl, rfl⟩ := Prod.mk.inj (Option.some.inj h)
          rw [hk]
          exact .closed hclose.1
        · next hclose =>
          split at h
          · cases h
          · next hpart =>
            obtain ⟨rfl, rfl⟩ := Prod.mk.inj (Option.some.inj h)
            refine .byte fun ha o => ?_
            rw [ha] at hopen hclose hpart
            simp only [Bool.not_false, Bool.true_and, Bool.not_eq_true] at hopen hclose hpart
            refine ⟨?_, fun hf => ?_⟩
            · cases o
              · exact hclose
              · exact hopen
            · rw [hf, Bool.not_false, Bool.true_and] at hpart
              refine Bool.eq_false_iff.mpr fun hp => ?_
              have hc := partialPrefix_head hp
              rw [hc, beq_self_eq_true, Bool.true_and, Bool.true_and, Bool.or_eq_false_iff] at hpart
              rw [hc] at hp
              cases o
              · rw [hpart.2] at hp
                cases hp
              · rw [hpart.1] at hp
                cases hp
  · intro h
    cases h with
    | opened ha =>
      next r =>
      obtain ⟨k, hk, -⟩ := thinkTag_eq true
      have hs : startsWith (thinkTag true) (thinkTag true ++ r) = true := startsWith_append _ r
      rw [hk, List.cons_append] at hs ⊢
      rw [streamTake, ha, hk, hs]
      rfl
    | closed ha =>
      next r =>
      obtain ⟨k, hk, -⟩ := thinkTag_eq false
      have hs : startsWith (thinkTag false) (thinkTag false ++ r) = true := startsWith_append _ r
      have hno := tags_apart r
      rw [hk, List.cons_append] at hs hno ⊢
      rw [streamTake, ha, hno, hk, hs]
      rfl
    | byte hno =>
      next c r =>
      rw [streamTake]
      cases ha : s.dsmlActive with
      | true => simp
      | false =>
        have htrue := hno ha true
        have hfalse := hno ha false
        rw [htrue.1, hfalse.1]
        cases finish with
        | true => simp
        | false => simp [htrue.2 rfl, hfalse.2 rfl]

theorem Taken.more {s t : AgentStream} {r : Bytes} {n : Nat} (h : Taken false s r t n) (x : Bytes) :
    Taken false s (r ++ x) t n := by
  cases h with
  | opened ha => exact List.append_assoc _ _ x ▸ .opened ha
  | closed ha => exact List.append_assoc _ _ x ▸ .closed ha
  | byte hno =>
    next c r =>
    refine .byte fun ha o => ?_
    obtain ⟨hs, hp⟩ := hno ha o
    change startsWith (thinkTag o) (c :: r ++ x) = false ∧ (false = false → partialPrefix (thinkTag o) (c :: r ++ x) = false)
    refine ⟨Bool.eq_false_iff.mpr fun hs' => ?_, fun _ => Bool.eq_false_iff.mpr fun hp' => ?_⟩
    · rcases startsWith_more_cases hs' with h | h
      · rw [hs] at h
        cases h
      · rw [hp rfl] at h
        cases h
    · rw [partialPrefix, Bool.and_eq_true, decide_eq_true_iff, List.isPrefixOf_iff_prefix] at hp'
      have hshort : partialPrefix (thinkTag o) (c :: r) = true := by
        rw [partialPrefix, Bool.and_eq_true, decide_eq_true_iff, List.isPrefixOf_iff_prefix]
        exact ⟨Nat.lt_of_le_of_lt (List.prefix_append _ x).length_le hp'.1, (List.prefix_append _ x).trans hp'.2⟩
      rw [hp rfl] at hshort
      cases hshort

theorem Taken.pos {finish : Bool} {s t : AgentStream} {r : Bytes} {n : Nat} (h : Taken finish s r t n) :
    0 < n ∧ n ≤ r.length := by
  cases h with
  | opened _ => exact ⟨by decide +kernel, by simp⟩
  | closed _ => exact ⟨by decide +kernel, by simp⟩
  | byte _ => exact ⟨Nat.one_pos, by simp⟩

/-- The stream as a reader: it waits only for a think tag. -/
def streamReader : Reader AgentStream UInt8 where
  take := streamTake false
  pos h := (taken_iff.mp h).pos
  more h x := taken_iff.mpr ((taken_iff.mp h).more x)

/-! ## The end of the stream -/

/-- The rest of the text, read to its end. -/
def finishLoop (s : AgentStream) (r : Bytes) : AgentStream := (streamLoop true r.length s r).1

theorem taken_finish {s t : AgentStream} {r : Bytes} {n : Nat} (h : Taken false s r t n) : Taken true s r t n := by
  cases h with
  | opened ha => exact .opened ha
  | closed ha => exact .closed ha
  | byte hno => exact .byte fun ha o => ⟨(hno ha o).1, fun h => by cases h⟩

/-- At the end nothing waits. -/
theorem finish_takes {s : AgentStream} {r : Bytes} (hr : r ≠ []) : ∃ t n, streamTake true s r = some (t, n) := by
  cases r with
  | nil => exact absurd rfl hr
  | cons c r =>
    rw [streamTake]
    split
    · exact ⟨_, _, rfl⟩
    · split
      · exact ⟨_, _, rfl⟩
      · exact ⟨_, _, rfl⟩

theorem streamLoop_fuel (s : AgentStream) (r : Bytes) : ∀ {n m : Nat}, r.length ≤ n → r.length ≤ m →
    streamLoop true n s r = streamLoop true m s r := by
  induction hl : r.length using Nat.strongRecOn generalizing s r with
  | ind l ih =>
    intro n m hn hm
    cases r with
    | nil =>
      cases n <;> cases m <;> rfl
    | cons c r =>
      obtain ⟨t, k, htake⟩ := @finish_takes s (c :: r) (List.cons_ne_nil c r)
      have hk := (taken_iff.mp htake).pos
      have hdrop : ((c :: r).drop k).length < l := by
        rw [List.length_drop]
        omega
      obtain ⟨n, rfl⟩ := Nat.exists_eq_succ_of_ne_zero (show n ≠ 0 by rw [← hl] at hn; simp at hn; omega)
      obtain ⟨m, rfl⟩ := Nat.exists_eq_succ_of_ne_zero (show m ≠ 0 by rw [← hl] at hm; simp at hm; omega)
      rw [Nat.succ_eq_add_one, Nat.succ_eq_add_one, streamLoop, streamLoop, htake]
      exact ih _ hdrop t _ rfl (by omega) (by omega)

theorem finishLoop_nil (s : AgentStream) : finishLoop s [] = s := rfl

theorem finishLoop_some {s t : AgentStream} {r : Bytes} {n : Nat} (h : Taken true s r t n) :
    finishLoop s r = finishLoop t (r.drop n) := by
  have hn := h.pos
  obtain ⟨k, hk⟩ := Nat.exists_eq_succ_of_ne_zero (show r.length ≠ 0 by omega)
  rw [finishLoop, finishLoop, hk, Nat.succ_eq_add_one, streamLoop, taken_iff.mpr h]
  dsimp only
  rw [streamLoop_fuel t (r.drop n) (n := k) (by rw [List.length_drop]; omega) (Nat.le_refl _)]

/-- Reading on as far as it goes first, and then to the end, is reading to the end. -/
theorem finishLoop_run (s : AgentStream) (a b : Bytes) :
    finishLoop s (a ++ b) = finishLoop (streamReader.run s a).1 ((streamReader.run s a).2 ++ b) := by
  induction hn : a.length using Nat.strongRecOn generalizing s a with
  | ind n ih =>
    cases h : streamReader.take s a with
    | none => rw [Reader.run_none h]
    | some x =>
      have hx := streamReader.pos h
      rw [Reader.run_some h, finishLoop_some (taken_finish (taken_iff.mp (streamReader.more h b))),
        List.drop_append_of_le_length hx.2]
      exact ih _ (hn ▸ Reader.drop_lt h) _ _ rfl

/-! ## Tokens -/

theorem streamLoop_run (s : AgentStream) (r : Bytes) : streamLoop false r.length s r = streamReader.run s r := by
  have hgo : ∀ n s r, streamLoop false n s r = streamReader.go n s r := by
    intro n
    induction n with
    | zero => exact fun s r => rfl
    | succ n ih =>
      intro s r
      rw [streamLoop, Reader.go, show streamReader.take s r = streamTake false s r from rfl]
      cases streamTake false s r with
      | none => rfl
      | some x => exact ih x.1 (r.drop x.2)
  exact hgo _ s r

/-- What waits is the beginning of a think tag. -/
theorem waits_short {s : AgentStream} {r : Bytes} (h : streamReader.take s r = none) : r.length < 16 := by
  cases r with
  | nil => decide
  | cons c r =>
    change streamTake false s (c :: r) = none at h
    rw [streamTake] at h
    split at h
    · cases h
    · split at h
      · cases h
      · split at h
        · next hpart =>
          simp only [Bool.and_eq_true, Bool.or_eq_true, partialPrefix, decide_eq_true_iff] at hpart
          have hlen : ∀ o, (thinkTag o).length ≤ 8 := by
            intro o
            obtain ⟨t, ht, -, ht'⟩ := thinkTag_eq o
            rw [ht, List.length_cons]
            omega
          have htrue := hlen true
          have hfalse := hlen false
          omega
        · cases h

theorem streamText_feed (c : AgentStream × Bytes) (text : Bytes) : streamText false c text = streamReader.feed c text := by
  rw [streamText, streamLoop_run, Reader.feed, if_neg Bool.false_ne_true, if_pos (waits_short (Reader.take_run _ _))]

theorem streamText_finish (c : AgentStream × Bytes) (text : Bytes) :
    (streamText true c text).1 = finishStream (finishLoop c.1 (c.2 ++ text)) := rfl

/-- The tokens, as far as they can be read, are their text. -/
theorem streamed_pieces (c : AgentStream × Bytes) (hc : streamReader.take c.1 c.2 = none) (pieces : List Bytes) :
    pieces.foldl (streamText false) c = streamReader.run c.1 (c.2 ++ pieces.flatten) := by
  rw [show streamText false = streamReader.feed from funext fun c => funext fun t => streamText_feed c t]
  exact Reader.feed_pieces c pieces hc

end Ds4.Agent
