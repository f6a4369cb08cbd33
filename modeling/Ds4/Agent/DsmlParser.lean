import Ds4.Bytes

/- The parser of tool calls in ds4_agent.c, fed with the bytes the model writes.

   Correspondence (C ↔ Lean):
     `agent_tool_arg`, `agent_tool_call`   ↔ `AgentDsmlArg`, `AgentDsmlCall`, `AgentDsmlOpenCall`
     `agent_dsml_state`, `agent_dsml_parser` ↔ `AgentDsmlState`, `AgentDsmlParser`
     `agent_tool_call_add_arg`             ↔ `AgentDsmlOpenCall.addArg`
     `agent_tool_calls_push`               ↔ `AgentDsmlParser.push`
     `agent_parse_attr`                    ↔ `agentParseAttr`
     `agent_dsml_set_error`                ↔ `agentDsmlSetError`
     `agent_dsml_open_tag_is`              ↔ `agentDsmlOpenTagIs`
     `agent_dsml_close_tag_at`             ↔ `agentDsmlCloseTagAt`
     `agent_dsml_find_close_tag`           ↔ `agentDsmlFindCloseTag`
     `agent_dsml_parse`                    ↔ `agentDsmlParse`, a round of its loop `agentDsmlRound`
     `agent_dsml_start`, `agent_dsml_feed` ↔ `agentDsmlStart`, `agentDsmlFeed`
   The flag `param_close_prefix` tells the sampler what to do next and no part of the
   parser reads it; it is left out with `agent_dsml_update_param_close_prefix`.

   What is proved: what a tag is, in its own terms, and that the parser's functions find
   just these tags (`closeTagAt_iff`, `findCloseTag_sound`, `findCloseTag_complete`,
   `openTagIs_iff`, `parseAttr_iff`). -/
namespace Ds4.Agent
open Ds4 Bytes

/-! ## Calls and parser -/

structure AgentDsmlArg where
  name : Bytes
  value : Bytes
  isString : Bool
deriving DecidableEq

structure AgentDsmlCall where
  name : Bytes
  args : List AgentDsmlArg
deriving DecidableEq

/-- The call being read; it has no name before its tag and after it was pushed. -/
structure AgentDsmlOpenCall where
  name : Option Bytes := none
  args : List AgentDsmlArg := []
deriving DecidableEq

def AgentDsmlOpenCall.addArg (call : AgentDsmlOpenCall) (name value : Bytes) (isString : Bool) : AgentDsmlOpenCall :=
  { call with args := call.args ++ [⟨name, value, isString⟩] }

inductive AgentDsmlState where
  | search | structural | paramValue | done | error
deriving DecidableEq

structure AgentDsmlParser where
  state : AgentDsmlState := .search
  searchTail : Bytes := []
  raw : Bytes := []
  parsePos : Nat := 0
  current : AgentDsmlOpenCall := {}
  paramName : Option Bytes := none
  paramIsString : Bool := false
  paramValueStart : Nat := 0
  calls : List AgentDsmlCall := []
  error : Bytes := []
deriving DecidableEq

/-- `agent_tool_calls_push(&p->calls, &p->current)` on the two lists. -/
def pushCall : List AgentDsmlCall × AgentDsmlOpenCall → List AgentDsmlCall × AgentDsmlOpenCall
  | (calls, ⟨none, args⟩) => (calls, ⟨none, args⟩)
  | (calls, ⟨some name, args⟩) => (calls ++ [⟨name, args⟩], {})

def AgentDsmlParser.push (p : AgentDsmlParser) : AgentDsmlParser :=
  { p with calls := (pushCall (p.calls, p.current)).1, current := (pushCall (p.calls, p.current)).2 }

/-! ## Tags -/

/-- The blanks between tags and inside them. -/
def tagSpace (c : UInt8) : Bool := c == 32 || c == 9 || c == 13 || c == 10

def openTagHead (name : Bytes) : Bytes := utf8 "<｜DSML｜" ++ name
def closeTagHead (name : Bytes) : Bytes := utf8 "</｜DSML｜" ++ name
def dsmlBar : Bytes := utf8 "｜"
def dsmlToolCallsStart : Bytes := openTagHead (utf8 "tool_calls") ++ [62]

def agentParseAttr (tag name : Bytes) : Option Bytes := do
  let (_, p) ← strstr (name ++ [61, 34]) tag
  let (value, _) ← strchr 34 (p.drop (name ++ [61, 34]).length)
  some value

def agentDsmlOpenTagIs (tag name : Bytes) : Bool :=
  startsWith (openTagHead name) tag &&
    match tag.drop (openTagHead name).length with
    | [] => false
    | c :: _ => c == 62 || tagSpace c

/-- The length of the closing tag that a text starts with. -/
def agentDsmlCloseTagAt (name s : Bytes) : Option Nat :=
  if !startsWith (closeTagHead name) s then none
  else
    let p := (s.drop (closeTagHead name).length).dropWhile tagSpace
    let p := if startsWith dsmlBar p then p.drop dsmlBar.length else p
    match p.dropWhile tagSpace with
    | 62 :: rest => some (s.length - rest.length)
    | _ => none

/-- Where the first closing tag starts, and its length; the text ends at a NUL. -/
def agentDsmlFindCloseTag (name : Bytes) : Bytes → Option (Nat × Nat)
  | [] => none
  | c :: s =>
    match agentDsmlCloseTagAt name (c :: s) with
    | some n => some (0, n)
    | none => if c = 0 then none else (agentDsmlFindCloseTag name s).map fun r => (r.1 + 1, r.2)

/-! ## Parser -/

def agentDsmlSetError (p : AgentDsmlParser) (msg : Bytes) : AgentDsmlParser :=
  { p with state := .error, error := msg.take 159 }

/-- An opening tag or a tag that nothing accepts; the parser stands in front of it. -/
def agentDsmlOpenTag (p : AgentDsmlParser) (tag : Bytes) : AgentDsmlParser :=
  if agentDsmlOpenTagIs tag (utf8 "invoke") then
    let p := { p with current := { name := agentParseAttr tag (utf8 "name") } }
    if p.current.name.isNone then agentDsmlSetError p (utf8 "tool invoke without name")
    else { p with parsePos := p.parsePos + tag.length }
  else if agentDsmlOpenTagIs tag (utf8 "parameter") then
    let p := { p with
      paramName := agentParseAttr tag (utf8 "name")
      paramIsString := agentParseAttr tag (utf8 "string") = some (utf8 "true") }
    if p.paramName.isNone then agentDsmlSetError p (utf8 "tool parameter without name")
    else { p with
      parsePos := p.parsePos + tag.length
      paramValueStart := p.parsePos + tag.length
      state := .paramValue }
  else agentDsmlSetError p (utf8 "unexpected DSML tag: " ++ tag.take 80)

/-- One round of the loop, on the text `s` from the parse position on. The source skips
    blanks in a loop of its own; here each blank is a round. -/
def agentDsmlRound (p : AgentDsmlParser) (s : Bytes) : Option AgentDsmlParser :=
  match p.state with
  | .paramValue => do
    let (i, n) ← agentDsmlFindCloseTag (utf8 "parameter") s
    some { p with
      current := p.current.addArg (p.paramName.getD []) (s.take i) p.paramIsString
      paramName := none
      parsePos := p.paramValueStart + i + n
      state := .structural }
  | .structural =>
    match s with
    | [] => none
    | c :: _ =>
      if tagSpace c then some { p with parsePos := p.parsePos + 1 }
      else if let some n := agentDsmlCloseTagAt (utf8 "tool_calls") s then
        some { p.push with parsePos := p.parsePos + n, state := .done }
      else if let some n := agentDsmlCloseTagAt (utf8 "invoke") s then
        some { p.push with parsePos := p.parsePos + n }
      else (strchr 62 (cstr s)).map fun r => agentDsmlOpenTag p (r.1 ++ [62])
  | _ => none

/-- Where the parser reads on. -/
def AgentDsmlParser.cursor (p : AgentDsmlParser) : Nat :=
  if p.state = .paramValue then p.paramValueStart else p.parsePos

/-- The loop of `agent_dsml_parse`, `fuel` rounds at most. -/
def agentDsmlRounds : Nat → AgentDsmlParser → AgentDsmlParser
  | 0, p => p
  | fuel + 1, p =>
    match agentDsmlRound p (p.raw.drop p.cursor) with
    | none => p
    | some q => agentDsmlRounds fuel q

/-- A round takes a byte or ends the loop, so the length of the text is enough. -/
def agentDsmlParse (p : AgentDsmlParser) : AgentDsmlParser := agentDsmlRounds p.raw.length p

def agentDsmlStart (p : AgentDsmlParser) : AgentDsmlParser :=
  { p with
    state := .structural
    searchTail := []
    raw := p.raw ++ dsmlToolCallsStart
    parsePos := dsmlToolCallsStart.length }

/-- The last bytes seen, `n` at most, after one more. -/
def tailPush (n : Nat) (tail : Bytes) (c : UInt8) : Bytes := (if tail.length = n then tail.drop 1 else tail) ++ [c]

/-- A byte while the parser looks for the start of a block. -/
def agentDsmlSearch (p : AgentDsmlParser) (c : UInt8) : AgentDsmlParser :=
  let p := { p with searchTail := tailPush 64 p.searchTail c }
  if dsmlToolCallsStart.isSuffixOf p.searchTail then agentDsmlStart p else p

/-- A byte in the loop of `agent_dsml_feed`. -/
def agentDsmlByte (p : AgentDsmlParser) (c : UInt8) : AgentDsmlParser :=
  if p.state = .search then agentDsmlSearch p c
  else agentDsmlParse { p with raw := p.raw ++ [c] }

def agentDsmlFeed (p : AgentDsmlParser) (s : Bytes) : AgentDsmlParser :=
  if p.state = .done ∨ p.state = .error then p else s.foldl agentDsmlByte p

/-! ## What a tag is -/

/-- A name that leaves the brackets of a tag alone. -/
def TagName (name : Bytes) : Prop := 60 ∉ name ∧ 62 ∉ name ∧ 0 ∉ name

/-- A closing tag, with the bar and the blanks it may have. -/
def ClosingTag (name t : Bytes) : Prop :=
  ∃ w bar w', t = closeTagHead name ++ w ++ bar ++ w' ++ [62] ∧ (bar = [] ∨ bar = dsmlBar) ∧
    (∀ c ∈ w, tagSpace c = true) ∧ ∀ c ∈ w', tagSpace c = true

/-- An opening tag: its name, its attributes, the bracket. -/
def OpeningTag (name t : Bytes) : Prop :=
  ∃ attrs, t = openTagHead name ++ attrs ++ [62] ∧ (∀ c ∈ attrs.head?, tagSpace c = true) ∧ 62 ∉ attrs ∧ 0 ∉ attrs

/-- The first `name="` of the tag opens the value, and the next quote closes it. -/
def Attribute (tag name value : Bytes) : Prop :=
  ∃ a b, tag = a ++ (name ++ [61, 34] ++ value ++ 34 :: b) ∧ 34 ∉ value ∧
    ∀ i < a.length, ¬name ++ [61, 34] <+: tag.drop i

/-- A text has one first place of a byte. -/
theorem first_byte {d : UInt8} : ∀ {a b r s : Bytes}, d ∉ a → d ∉ b → a ++ d :: r = b ++ d :: s → a = b ∧ r = s
  | [], [], _, _, _, _, h => ⟨rfl, (List.cons.inj h).2⟩
  | [], _ :: _, _, _, _, hb, h => absurd ((List.cons.inj h).1 ▸ List.mem_cons_self) hb
  | _ :: _, [], _, _, ha, _, h => absurd ((List.cons.inj h).1 ▸ List.mem_cons_self) ha
  | x :: a, y :: b, r, s, ha, hb, h => by
    obtain ⟨hxy, h⟩ := List.cons.inj h
    obtain ⟨hab, hrs⟩ := first_byte (fun hd => ha (List.mem_cons_of_mem _ hd)) (fun hd => hb (List.mem_cons_of_mem _ hd)) h
    exact ⟨by rw [hxy, hab], hrs⟩

theorem tagSpace_ne {c : UInt8} (h : tagSpace c = true) : c ≠ 60 ∧ c ≠ 62 ∧ c ≠ 0 := by
  refine ⟨?_, ?_, ?_⟩ <;> rintro rfl <;> exact absurd h (by decide)

theorem bar_plain : (60 : UInt8) ∉ dsmlBar ∧ 62 ∉ dsmlBar ∧ 0 ∉ dsmlBar := by decide +kernel

theorem closeTagHead_eq (name : Bytes) : ∃ l, closeTagHead name = 60 :: l ++ name ∧ 60 ∉ l ∧ 62 ∉ l ∧ 0 ∉ l :=
  ⟨(utf8 "</｜DSML｜").tail, rfl, by decide +kernel, by decide +kernel, by decide +kernel⟩

/-- A closing tag opens with its one `<` and ends with its one `>`. -/
theorem ClosingTag.shape {name t : Bytes} (hn : TagName name) (h : ClosingTag name t) :
    ∃ m, t = 60 :: m ++ [62] ∧ 60 ∉ m ∧ 62 ∉ m ∧ 0 ∉ m := by
  obtain ⟨w, bar, w', rfl, hbar, hw, hw'⟩ := h
  obtain ⟨l, hl, hl1, hl2, hl3⟩ := closeTagHead_eq name
  have hbar' : (60 : UInt8) ∉ bar ∧ 62 ∉ bar ∧ 0 ∉ bar := by
    rcases hbar with rfl | rfl
    · simp
    · exact bar_plain
  refine ⟨l ++ name ++ w ++ bar ++ w', by simp [hl], ?_, ?_, ?_⟩
  · simp only [List.mem_append, not_or]
    exact ⟨⟨⟨⟨hl1, hn.1⟩, fun hm => (tagSpace_ne (hw _ hm)).1 rfl⟩, hbar'.1⟩, fun hm => (tagSpace_ne (hw' _ hm)).1 rfl⟩
  · simp only [List.mem_append, not_or]
    exact ⟨⟨⟨⟨hl2, hn.2.1⟩, fun hm => (tagSpace_ne (hw _ hm)).2.1 rfl⟩, hbar'.2.1⟩,
      fun hm => (tagSpace_ne (hw' _ hm)).2.1 rfl⟩
  · simp only [List.mem_append, not_or]
    exact ⟨⟨⟨⟨hl3, hn.2.2⟩, fun hm => (tagSpace_ne (hw _ hm)).2.2 rfl⟩, hbar'.2.2⟩,
      fun hm => (tagSpace_ne (hw' _ hm)).2.2 rfl⟩

theorem dropWhile_run {w s : Bytes} (hw : ∀ c ∈ w, tagSpace c = true) :
    (w ++ s).dropWhile tagSpace = s.dropWhile tagSpace := by
  rw [List.dropWhile_append_of_pos hw]

theorem dropWhile_split (s : Bytes) :
    ∃ w, s = w ++ s.dropWhile tagSpace ∧ ∀ c ∈ w, tagSpace c = true :=
  ⟨s.takeWhile tagSpace, List.takeWhile_append_dropWhile.symm, fun _ hc => List.mem_takeWhile_imp hc⟩

theorem closeTagAt_sound {name s : Bytes} {n : Nat} (h : agentDsmlCloseTagAt name s = some n) :
    ∃ t r, s = t ++ r ∧ ClosingTag name t ∧ n = t.length := by
  rw [agentDsmlCloseTagAt] at h
  split at h
  · cases h
  · next hhead =>
    rw [Bool.not_eq_true', Bool.not_eq_false] at hhead
    obtain ⟨s, rfl⟩ := startsWith_iff.mp hhead
    rw [List.drop_left] at h
    obtain ⟨w, hs, hw⟩ := dropWhile_split s
    generalize s.dropWhile tagSpace = p at h hs
    -- the bar is there or it is not; the rest of the tag is the same
    obtain ⟨bar, q, hp, hbar, hq⟩ : ∃ bar q, p = bar ++ q ∧ (bar = [] ∨ bar = dsmlBar) ∧
        (if startsWith dsmlBar p then p.drop dsmlBar.length else p) = q := by
      by_cases hb : startsWith dsmlBar p = true
      · obtain ⟨q, rfl⟩ := startsWith_iff.mp hb
        exact ⟨dsmlBar, q, rfl, .inr rfl, by rw [if_pos hb, List.drop_left]⟩
      · exact ⟨[], p, rfl, .inl rfl, if_neg hb⟩
    obtain ⟨w', hq', hw'⟩ := dropWhile_split q
    dsimp only at h
    rw [hq] at h
    split at h
    · next rest hr =>
      obtain rfl := Option.some.inj h
      rw [hr] at hq'
      refine ⟨closeTagHead name ++ w ++ bar ++ w' ++ [62], rest, ?_, ⟨w, bar, w', rfl, hbar, hw, hw'⟩, ?_⟩
      · rw [hs, hp, hq']
        simp
      · rw [hs, hp, hq']
        simp
        omega
    · cases h

theorem closeTagAt_complete {name t : Bytes} (h : ClosingTag name t) (r : Bytes) :
    agentDsmlCloseTagAt name (t ++ r) = some t.length := by
  obtain ⟨w, bar, w', rfl, hbar, hw, hw'⟩ := h
  have hlast : (w' ++ 62 :: r).dropWhile tagSpace = 62 :: r := by
    rw [dropWhile_run hw']
    rfl
  have hmid : (bar ++ (w' ++ 62 :: r)).dropWhile tagSpace =
      if bar = [] then 62 :: r else bar ++ (w' ++ 62 :: r) := by
    rcases hbar with rfl | rfl
    · exact hlast
    · rfl
  have hcut : closeTagHead name ++ w ++ bar ++ w' ++ [62] ++ r =
      closeTagHead name ++ (w ++ (bar ++ (w' ++ 62 :: r))) := by simp
  have hlen : (closeTagHead name ++ (w ++ (bar ++ (w' ++ 62 :: r)))).length - r.length =
      (closeTagHead name ++ w ++ bar ++ w' ++ [62]).length := by
    simp
    omega
  rw [hcut, agentDsmlCloseTagAt, startsWith_append, List.drop_left, dropWhile_run hw, hmid]
  rcases hbar with rfl | rfl
  · have hno : startsWith dsmlBar (62 :: r) = false := rfl
    simp only [Bool.not_true, Bool.false_eq_true, if_false, if_true, hno, ← hlen]
    rfl
  · have hne : dsmlBar ≠ [] := by decide +kernel
    simp only [Bool.not_true, Bool.false_eq_true, if_false, if_neg hne, startsWith_append, if_true, List.drop_left,
      hlast, hlen]

theorem closeTagAt_iff {name s : Bytes} {n : Nat} :
    agentDsmlCloseTagAt name s = some n ↔ ∃ t r, s = t ++ r ∧ ClosingTag name t ∧ n = t.length := by
  refine ⟨closeTagAt_sound, ?_⟩
  rintro ⟨t, r, rfl, ht, rfl⟩
  exact closeTagAt_complete ht r

/-- The first bracket decides whether a closing tag stands here. -/
theorem closeTagAt_bracket {name a : Bytes} (hn : TagName name) (ha : 62 ∉ a) (r x : Bytes) :
    agentDsmlCloseTagAt name (a ++ 62 :: r ++ x) = agentDsmlCloseTagAt name (a ++ 62 :: r) := by
  refine Option.ext fun n => ?_
  rw [closeTagAt_iff, closeTagAt_iff]
  constructor
  · rintro ⟨t, k, hk, ht, rfl⟩
    obtain ⟨m, rfl, -, hm, -⟩ := ht.shape hn
    -- both cuts are at the first bracket
    have hcut : a ++ 62 :: (r ++ x) = (60 :: m) ++ 62 :: k := by simpa using hk
    obtain ⟨rfl, hk⟩ := first_byte ha (by simp [hm]) hcut
    exact ⟨_, r, by simp, ht, rfl⟩
  · rintro ⟨t, k, hk, ht, rfl⟩
    exact ⟨t, k ++ x, by rw [hk, List.append_assoc], ht, rfl⟩

/-- No closing tag in a parameter's value. -/
def NoClosing (name v : Bytes) : Prop := ∀ a t b, ClosingTag name t → v ≠ a ++ t ++ b

theorem ClosingTag.length_pos {name t : Bytes} (hn : TagName name) (h : ClosingTag name t) : 0 < t.length := by
  obtain ⟨m, rfl, -⟩ := h.shape hn
  simp

/-- Two closing tags do not overlap: one that starts before another ends before it. -/
theorem closing_within {name t t' : Bytes} (hn : TagName name) (ht : ClosingTag name t) (ht' : ClosingTag name t') :
    ∀ {v r r' : Bytes}, v ≠ [] → v ++ t ++ r = t' ++ r' → ∃ b, v = t' ++ b
  | v, r, r', hv, h => by
    obtain ⟨m, rfl, hm, -⟩ := ht.shape hn
    obtain ⟨m', rfl, hm', -⟩ := ht'.shape hn
    obtain ⟨c, v, rfl⟩ := List.exists_cons_of_ne_nil hv
    simp only [List.cons_append, List.append_assoc, List.cons.injEq] at h
    obtain ⟨rfl, h⟩ := h
    rcases List.append_eq_append_iff.mp h with ⟨a, ha, hrest⟩ | ⟨a, ha, hrest⟩
    · -- the earlier tag has no other `<` than its first
      cases a with
      | nil => exact absurd (List.cons.inj hrest).1 (by decide)
      | cons d a =>
        obtain ⟨rfl, -⟩ := List.cons.inj hrest
        exact absurd (by rw [ha]; simp) hm'
    · cases a with
      | nil => exact absurd (List.cons.inj hrest).1 (by decide)
      | cons d a =>
        obtain ⟨rfl, -⟩ := List.cons.inj hrest
        exact ⟨a, by rw [ha]; simp⟩

theorem findCloseTag_sound {name : Bytes} : ∀ {s : Bytes} {i n : Nat}, agentDsmlFindCloseTag name s = some (i, n) →
    ∃ v t r, s = v ++ t ++ r ∧ i = v.length ∧ n = t.length ∧ ClosingTag name t ∧ 0 ∉ v ∧
      ∀ k < v.length, agentDsmlCloseTagAt name (s.drop k) = none
  | [], i, n, h => by cases h
  | c :: s, i, n, h => by
    rw [agentDsmlFindCloseTag] at h
    cases hat : agentDsmlCloseTagAt name (c :: s) with
    | some k =>
      rw [hat] at h
      obtain ⟨rfl, rfl⟩ := Prod.mk.inj (Option.some.inj h)
      obtain ⟨t, r, hs, ht, hn⟩ := closeTagAt_sound hat
      exact ⟨[], t, r, hs, rfl, hn, ht, List.not_mem_nil, fun k hk => absurd hk (Nat.not_lt_zero k)⟩
    | none =>
      rw [hat] at h
      dsimp only at h
      split at h
      · cases h
      · next hc =>
        obtain ⟨⟨j, k⟩, hr, hjk⟩ := Option.map_eq_some_iff.mp h
        obtain ⟨rfl, rfl⟩ := Prod.mk.inj hjk
        obtain ⟨v, t, r, hs, rfl, hn, ht, hv, hno⟩ := findCloseTag_sound hr
        refine ⟨c :: v, t, r, by rw [hs]; rfl, rfl, hn, ht, ?_, fun k hk => ?_⟩
        · rw [List.mem_cons, not_or]
          exact ⟨Ne.symm hc, hv⟩
        · cases k with
          | zero => exact hat
          | succ k => exact hno k (by simpa using hk)

theorem findCloseTag_complete {name t : Bytes} (hn : TagName name) (ht : ClosingTag name t) (r : Bytes) :
    ∀ {v : Bytes}, 0 ∉ v → NoClosing name v → agentDsmlFindCloseTag name (v ++ t ++ r) = some (v.length, t.length)
  | [], _, _ => by
    obtain ⟨m, hm, -⟩ := ht.shape hn
    have hat := closeTagAt_complete ht r
    rw [hm] at hat ⊢
    simp only [List.nil_append, List.cons_append] at hat ⊢
    rw [agentDsmlFindCloseTag, hat]
    rfl
  | c :: v, h0, hno => by
    rw [List.mem_cons, not_or] at h0
    have hat : agentDsmlCloseTagAt name (c :: v ++ t ++ r) = none := by
      refine Option.eq_none_iff_forall_ne_some.mpr fun k hk => ?_
      obtain ⟨t', r', hs, ht', -⟩ := closeTagAt_sound hk
      obtain ⟨b, hb⟩ := closing_within hn ht ht' (List.cons_ne_nil _ _) hs
      exact hno [] t' b ht' (by rw [hb, List.nil_append])
    have ih := findCloseTag_complete hn ht r h0.2 fun a t b htb hv => hno (c :: a) t b htb (by rw [hv]; rfl)
    simp only [List.cons_append] at hat ⊢
    rw [agentDsmlFindCloseTag, hat]
    dsimp only
    rw [if_neg (Ne.symm h0.1), ih]
    rfl

theorem findCloseTag_noClosing {name v t r : Bytes} (hn : TagName name)
    (hno : ∀ k < v.length, agentDsmlCloseTagAt name ((v ++ t ++ r).drop k) = none) : NoClosing name v := by
  rintro a t' b ht' rfl
  have hpos := ht'.length_pos hn
  have hat := hno a.length (by simp; omega)
  have hdrop : (a ++ t' ++ b ++ t ++ r).drop a.length = t' ++ (b ++ t ++ r) := by
    simp
  rw [hdrop, closeTagAt_complete ht'] at hat
  cases hat

theorem findCloseTag_more {name s : Bytes} (hn : TagName name) {i n : Nat}
    (h : agentDsmlFindCloseTag name s = some (i, n)) (x : Bytes) : agentDsmlFindCloseTag name (s ++ x) = some (i, n) := by
  obtain ⟨v, t, r, rfl, rfl, rfl, ht, h0, hno⟩ := findCloseTag_sound h
  rw [List.append_assoc (v ++ t)]
  exact findCloseTag_complete hn ht _ h0 (findCloseTag_noClosing hn hno)

theorem strstr_first {lit a k : Bytes} (hno : ∀ j < a.length, startsWith lit ((a ++ (lit ++ k)).drop j) = false) :
    strstr lit (a ++ (lit ++ k)) = some (a, lit ++ k) := by
  have hat : startsWith lit ((a ++ (lit ++ k)).drop a.length) = true := by
    rw [List.drop_left, startsWith_append]
  cases h : strstr lit (a ++ (lit ++ k)) with
  | none =>
    rw [strstr_nowhere h a.length] at hat
    cases hat
  | some x =>
    obtain ⟨a', r⟩ := x
    obtain ⟨hs, -⟩ := strstr_sound h
    obtain ⟨hat', hno'⟩ := strstr_index h
    have hlen : a.length = a'.length := by
      rcases Nat.lt_trichotomy a'.length a.length with hlt | heq | hgt
      · rw [hno _ hlt] at hat'
        cases hat'
      · exact heq.symm
      · rw [hno' _ hgt] at hat
        cases hat
    obtain ⟨rfl, rfl⟩ := List.append_inj hs hlen
    rfl

/-- The first place of a byte, as `strchr` finds it. -/
theorem strchr_iff {d : UInt8} {s a : Bytes} : (∃ r, strchr d s = some (a, r)) ↔ ∃ r, s = a ++ d :: r ∧ d ∉ a := by
  constructor
  · rintro ⟨r, h⟩
    obtain ⟨hs, hr⟩ := strstr_sound h
    obtain ⟨r', rfl⟩ := startsWith_iff.mp hr
    refine ⟨r', hs, fun hd => ?_⟩
    obtain ⟨i, hi, hget⟩ := List.getElem_of_mem hd
    have hno := (strstr_index h).2 i hi
    have hdrop : s.drop i = d :: (a ++ [d] ++ r').drop (i + 1) := by
      rw [hs, ← List.append_assoc, List.drop_eq_getElem_cons (by simp; omega)]
      simp [List.getElem_append_left, hi, hget]
    rw [hdrop] at hno
    simp at hno
  · rintro ⟨r, rfl, hd⟩
    exact ⟨_, strchr_append hd r⟩

theorem parseAttr_iff {tag name v : Bytes} : agentParseAttr tag name = some v ↔ Attribute tag name v := by
  constructor
  · intro h
    rw [agentParseAttr] at h
    obtain ⟨⟨a, p⟩, hp, h⟩ := Option.bind_eq_some_iff.mp h
    obtain ⟨⟨v', q⟩, hq, h⟩ := Option.bind_eq_some_iff.mp h
    obtain rfl := Option.some.inj h
    obtain ⟨rfl, hs⟩ := strstr_sound hp
    obtain ⟨r, rfl⟩ := startsWith_iff.mp hs
    rw [List.drop_left] at hq
    obtain ⟨b, rfl, hv⟩ := strchr_iff.mp ⟨q, hq⟩
    refine ⟨a, b, by simp, hv, fun i hi hpre => ?_⟩
    have := (strstr_index hp).2 i hi
    rw [startsWith, List.isPrefixOf_iff_prefix.mpr hpre] at this
    cases this
  · rintro ⟨a, b, rfl, hv, hno⟩
    have hcut : a ++ (name ++ [61, 34] ++ v ++ 34 :: b) = a ++ ((name ++ [61, 34]) ++ (v ++ 34 :: b)) := by simp
    obtain ⟨r, hr⟩ := strchr_iff.mpr ⟨b, rfl, hv⟩
    rw [agentParseAttr, hcut, strstr_first fun j hj => ?_]
    · dsimp only [Option.bind_eq_bind, Option.bind_some]
      rw [List.drop_left, hr]
      rfl
    · rw [← hcut, startsWith, Bool.eq_false_iff, ne_eq, List.isPrefixOf_iff_prefix]
      exact hno j hj

theorem openTagIs_iff {name a : Bytes} (hn : TagName name) (h62 : 62 ∉ a) (h0 : 0 ∉ a) :
    agentDsmlOpenTagIs (a ++ [62]) name = true ↔ OpeningTag name (a ++ [62]) := by
  rw [agentDsmlOpenTagIs, Bool.and_eq_true]
  constructor
  · rintro ⟨hs, hc⟩
    have hhead : (62 : UInt8) ∉ openTagHead name := by
      rw [openTagHead, List.mem_append, not_or]
      exact ⟨by decide +kernel, hn.2.1⟩
    rw [startsWith_append_cons hhead] at hs
    obtain ⟨attrs, rfl⟩ := startsWith_iff.mp hs
    rw [List.append_assoc, List.drop_left] at hc
    rw [List.mem_append, not_or] at h62 h0
    refine ⟨attrs, rfl, fun c hc' => ?_, h62.2, h0.2⟩
    cases attrs with
    | nil => cases hc'
    | cons d attrs =>
      obtain rfl : d = c := Option.some.inj hc'
      have hd : d ≠ 62 := fun h => h62.2 (h ▸ List.mem_cons_self)
      simpa [hd] using hc
  · rintro ⟨attrs, ht, hc, -, -⟩
    obtain rfl := List.append_cancel_right ht
    rw [List.append_assoc, startsWith_append, List.drop_left]
    refine ⟨rfl, ?_⟩
    cases attrs with
    | nil => rfl
    | cons d attrs =>
      have := hc d rfl
      simp [this]

end Ds4.Agent
