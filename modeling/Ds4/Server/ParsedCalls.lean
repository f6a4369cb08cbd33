import Ds4.Server.FlatBlock

/- What the parser of a generated message reads of each call, parameter by parameter,
   before it writes any JSON: the names, the `string` attributes and the raw values, with
   the leaves of a parameter that holds parameters of its own.

   Each reader follows the parser function of its name and keeps what that one puts
   into the arguments text. PROVED here: the parser's calls are those read, written
   (`parsed_calls`), and a text without NUL gives names and values without NUL
   (`readMessage_clean`). -/
namespace Ds4.Server
open Bytes

deriving instance DecidableEq for DsmlParam

/-- A parameter of a call: one value, or an object of such. -/
inductive CallParam where
  | leaf (l : DsmlParam)
  | object (key : Bytes) (leaves : List DsmlParam)
  deriving DecidableEq

structure ReadCall where
  name : Bytes
  params : List CallParam
  deriving DecidableEq

/-! ## Readers -/

def readLeaf (syn : DsmlSyntax) (p : Bytes) : Option (DsmlParam × Bytes) :=
  if !startsWith syn.paramStart p then none
  else do
    let (tag, r) ← splitTag p
    let name ← dsmlAttr tag (utf8 "name")
    let type := (dsmlAttr tag (utf8 "string")).getD (utf8 "true")
    let (raw, e) ← strstr syn.paramEnd r
    some ({ key := name, type := type, raw := raw }, e.drop syn.paramEnd.length)

def readLeaves (syn : DsmlSyntax) : Nat → Bytes → Option (List DsmlParam × Bytes)
  | 0, _ => none
  | fuel + 1, p =>
    let p := skipWs p
    if !startsWith syn.paramStart p then some ([], p)
    else do
      let (l, r) ← readLeaf syn p
      let (ls, r) ← readLeaves syn fuel r
      some (l :: ls, r)

def readObject (syn : DsmlSyntax) (p : Bytes) : Option (List DsmlParam × Bytes) :=
  if !startsWith syn.paramStart (skipWs p) then none else readLeaves syn (p.length + 1) p

def readParams (syn : DsmlSyntax) : Nat → Bytes → Option (List CallParam × Bytes)
  | 0, _ => none
  | fuel + 1, p =>
    let p := skipWs p
    if startsWith syn.invokeEnd p then some ([], p.drop syn.invokeEnd.length)
    else if !startsWith syn.paramStart p then none
    else do
      let (tag, value) ← splitTag p
      let name ← dsmlAttr tag (utf8 "name")
      let isString := dsmlAttr tag (utf8 "string")
      if isString.isNone && startsWith syn.paramStart (skipWs value) then do
        let (ls, r) ← readObject syn value
        let r := skipWs r
        let (ps, r) ← readParams syn fuel (if startsWith syn.paramEnd r then r.drop syn.paramEnd.length else r)
        some (.object name ls :: ps, r)
      else do
        let (raw, e) ← strstr syn.paramEnd value
        let type := isString.getD (utf8 "true")
        let (ps, r) ← readParams syn fuel (e.drop syn.paramEnd.length)
        some (.leaf { key := name, type := type, raw := raw } :: ps, r)

def readCalls (syn : DsmlSyntax) : Nat → Bytes → Option (List ReadCall × Bytes)
  | 0, _ => none
  | fuel + 1, p =>
    let p := skipOpening syn p
    if startsWith syn.toolCallsEnd p then some ([], p.drop syn.toolCallsEnd.length)
    else if !startsWith syn.invokeStart p then none
    else do
      let (tag, r) ← splitTag p
      let name ← dsmlAttr tag (utf8 "name")
      let (ps, r) ← readParams syn (r.length + 1) r
      let (calls, r) ← readCalls syn fuel r
      some ({ name := name, params := ps } :: calls, r)

/-- The calls of a generated message; none where the parser does not accept it. -/
def readMessage (text : Bytes) (requireThinkingClosed : Bool) : Option (List ReadCall) :=
  let search :=
    if requireThinkingClosed then (findLastSubstr (utf8 "</think>") text).map fun r => r.drop 8
    else some text
  match search with
  | none => some []
  | some toolSearch =>
    match findToolStart toolSearch with
    | none => some []
    | some (style, _, start) => do
      let syn := dsmlSyntax style
      let (_, p) ← strstr syn.toolCallsStart start
      let (calls, _) ← readCalls syn (p.length + 1) (p.drop syn.toolCallsStart.length)
      some calls

/-! ## What the parser writes of them -/

/-- The value handed to the writer, with the `string` attribute it is handed with. -/
def DsmlParam.value (l : DsmlParam) : Bytes := dsmlParamValue l.type l.raw

/-- The object the leaves make. -/
def leavesObject (ls : List DsmlParam) : Bytes :=
  123 :: (utf8 ", ").intercalate (ls.map DsmlParam.written) ++ [125]

def CallParam.key : CallParam → Bytes
  | .leaf l => l.key
  | .object key _ => key

def CallParam.type : CallParam → Bytes
  | .leaf l => l.type
  | .object _ _ => utf8 "false"

def CallParam.value : CallParam → Bytes
  | .leaf l => l.value
  | .object _ ls => leavesObject ls

def CallParam.written (q : CallParam) : Bytes := toolCallJsonMember q.key q.value q.type

def ReadCall.call (c : ReadCall) : ToolCall :=
  { name := c.name, arguments := 123 :: (utf8 ", ").intercalate (c.params.map CallParam.written) ++ [125] }

section
variable {syn : DsmlSyntax}

theorem written_ne_nil (l : DsmlParam) : l.written ≠ [] := toolCallJsonMember_ne_nil _ _ _

theorem CallParam.written_ne_nil (q : CallParam) : q.written ≠ [] := toolCallJsonMember_ne_nil _ _ _

/-- One more member, behind those written. -/
theorem add_written {l : List Bytes} (hl : ∀ t ∈ l, t ≠ []) (key value type : Bytes) :
    toolCallJsonArgsAdd ((utf8 ", ").intercalate l) key value type =
      (utf8 ", ").intercalate (l ++ [toolCallJsonMember key value type]) :=
  toolCallJsonArgsAdd_intercalate key value type hl

theorem parseLeaf_eq {l : List Bytes} (hl : ∀ t ∈ l, t ≠ []) (p : Bytes) :
    dsmlParseLeafParamJson syn ((utf8 ", ").intercalate l) p =
      (readLeaf syn p).map fun r => ((utf8 ", ").intercalate (l ++ [r.1.written]), r.2) := by
  unfold dsmlParseLeafParamJson readLeaf
  split
  next => rfl
  next =>
    cases splitTag p with
    | none => rfl
    | some t =>
      obtain ⟨tag, r⟩ := t
      simp only [Option.bind_eq_bind, Option.bind_some]
      cases dsmlAttr tag (utf8 "name") with
      | none => rfl
      | some name =>
        simp only [Option.bind_some]
        cases strstr syn.paramEnd r with
        | none => rfl
        | some e =>
          simp only [Option.bind_some, Option.map_some, add_written hl]
          rfl

theorem append_ne_nil {l : List Bytes} (hl : ∀ t ∈ l, t ≠ []) {t : Bytes} (ht : t ≠ []) : ∀ u ∈ l ++ [t], u ≠ [] := by
  intro u hu
  rcases List.mem_append.mp hu with hu | hu
  · exact hl u hu
  · rw [List.mem_singleton.mp hu]
    exact ht

theorem nestedMembers_eq (syn : DsmlSyntax) (fuel : Nat) {l : List Bytes} (hl : ∀ t ∈ l, t ≠ []) (p : Bytes) :
    nestedMembers syn fuel ((utf8 ", ").intercalate l) p =
      (readLeaves syn fuel p).map fun r => ((utf8 ", ").intercalate (l ++ r.1.map DsmlParam.written), r.2) := by
  induction fuel generalizing l p with
  | zero => rfl
  | succ fuel ih =>
    unfold nestedMembers readLeaves
    simp only []
    split
    next => simp
    next =>
      rw [parseLeaf_eq hl]
      cases readLeaf syn (skipWs p) with
      | none => rfl
      | some r =>
        simp only [Option.map_some, Option.bind_eq_bind, Option.bind_some, ih (append_ne_nil hl (written_ne_nil r.1))]
        cases readLeaves syn fuel r.2 with
        | none => rfl
        | some r' => simp

theorem parseObject_eq (p : Bytes) :
    dsmlParseNestedParamsObject syn p = (readObject syn p).map fun r => (leavesObject r.1, r.2) := by
  unfold dsmlParseNestedParamsObject readObject
  split
  next => rfl
  next =>
    have h := nestedMembers_eq syn (p.length + 1) (l := []) (fun t ht => absurd ht List.not_mem_nil) p
    rw [List.intercalate_nil] at h
    rw [h, Option.map_map]
    rfl

theorem parseParams_eq (syn : DsmlSyntax) (fuel : Nat) {l : List Bytes} (hl : ∀ t ∈ l, t ≠ []) (p : Bytes) :
    parseParams syn fuel ((utf8 ", ").intercalate l) p =
      (readParams syn fuel p).map fun r => ((utf8 ", ").intercalate (l ++ r.1.map CallParam.written), r.2) := by
  induction fuel generalizing l p with
  | zero => rfl
  | succ fuel ih =>
    unfold parseParams readParams
    simp only []
    split
    next => simp
    next =>
      split
      next => rfl
      next =>
        cases splitTag (skipWs p) with
        | none => rfl
        | some t =>
          obtain ⟨tag, value⟩ := t
          simp only [Option.bind_eq_bind, Option.bind_some]
          cases dsmlAttr tag (utf8 "name") with
          | none => rfl
          | some name =>
            simp only [Option.bind_some]
            split
            next =>
              -- a parameter that holds parameters
              rw [parseObject_eq]
              cases readObject syn value with
              | none => rfl
              | some o =>
                simp only [Option.map_some, Option.bind_some, add_written hl,
                  ih (append_ne_nil hl (toolCallJsonMember_ne_nil _ _ _))]
                cases readParams syn fuel (if startsWith syn.paramEnd (skipWs o.2) then
                    (skipWs o.2).drop syn.paramEnd.length else skipWs o.2) with
                | none => rfl
                | some r => simp [CallParam.written, CallParam.key, CallParam.value, CallParam.type]
            next =>
              cases strstr syn.paramEnd value with
              | none => rfl
              | some e =>
                simp only [Option.bind_some, add_written hl, ih (append_ne_nil hl (toolCallJsonMember_ne_nil _ _ _))]
                cases readParams syn fuel (e.2.drop syn.paramEnd.length) with
                | none => rfl
                | some r =>
                  simp [CallParam.written, CallParam.key, CallParam.value, CallParam.type, DsmlParam.value]

theorem parseInvokes_eq (fuel : Nat) (p : Bytes) :
    parseInvokes syn fuel p = (readCalls syn fuel p).map fun r => (r.1.map ReadCall.call, r.2) := by
  induction fuel generalizing p with
  | zero => rfl
  | succ fuel ih =>
    unfold parseInvokes readCalls
    simp only []
    split
    next => rfl
    next =>
      split
      next => rfl
      next =>
        cases splitTag (skipOpening syn p) with
        | none => rfl
        | some t =>
          obtain ⟨tag, r⟩ := t
          simp only [Option.bind_eq_bind, Option.bind_some]
          cases dsmlAttr tag (utf8 "name") with
          | none => rfl
          | some name =>
            have h := parseParams_eq syn (r.length + 1) (l := []) (fun t ht => absurd ht List.not_mem_nil) r
            rw [List.intercalate_nil] at h
            simp only [Option.bind_some, h]
            cases readParams syn (r.length + 1) r with
            | none => rfl
            | some ps =>
              simp only [Option.map_some, Option.bind_some, ih]
              cases readCalls syn fuel ps.2 with
              | none => rfl
              | some calls => rfl

end

/-- The parser's calls are the calls read, as the writer writes them. -/
theorem parsed_calls (text : Bytes) (requireThinkingClosed : Bool) :
    (parseGeneratedMessageEx text requireThinkingClosed).map ParsedMessage.calls =
      (readMessage text requireThinkingClosed).map fun calls => calls.map ReadCall.call := by
  unfold parseGeneratedMessageEx readMessage
  simp only []
  generalize (if requireThinkingClosed = true then
    (findLastSubstr (utf8 "</think>") text).map fun r => r.drop 8 else some text) = search
  cases search with
  | none => rfl
  | some toolSearch =>
    simp only []
    cases findToolStart toolSearch with
    | none => rfl
    | some f =>
      obtain ⟨style, a, start⟩ := f
      simp only []
      cases strstr (dsmlSyntax style).toolCallsStart start with
      | none => rfl
      | some r =>
        obtain ⟨a, p⟩ := r
        simp only [Option.bind_eq_bind, Option.bind_some, parseInvokes_eq]
        cases readCalls (dsmlSyntax style) (p.length + 1) (p.drop (dsmlSyntax style).toolCallsStart.length) with
        | none => rfl
        | some calls => rfl

/-! ## C strings -/

def DsmlParam.Clean (l : DsmlParam) : Prop := (0 : UInt8) ∉ l.key ∧ (0 : UInt8) ∉ l.raw

def CallParam.Clean : CallParam → Prop
  | .leaf l => l.Clean
  | .object key ls => (0 : UInt8) ∉ key ∧ ∀ l ∈ ls, l.Clean

section
variable {syn : DsmlSyntax} {p r : Bytes}

theorem clean_drop {n : Nat} (h : (0 : UInt8) ∉ p) : (0 : UInt8) ∉ p.drop n := fun h0 => h (List.mem_of_mem_drop h0)

theorem splitTag_clean {tag : Bytes} (h : splitTag p = some (tag, r)) (hp : (0 : UInt8) ∉ p) :
    (0 : UInt8) ∉ tag ∧ (0 : UInt8) ∉ r := by
  rw [(splitTag_sound h).1, List.mem_append, not_or] at hp
  exact hp

theorem strstr_clean {lit a : Bytes} (h : strstr lit p = some (a, r)) (hp : (0 : UInt8) ∉ p) :
    (0 : UInt8) ∉ a ∧ (0 : UInt8) ∉ r := by
  rw [(strstr_sound h).1, List.mem_append, not_or] at hp
  exact hp

theorem readLeaf_clean {l : DsmlParam} (h : readLeaf syn p = some (l, r)) (hp : (0 : UInt8) ∉ p) :
    l.Clean ∧ (0 : UInt8) ∉ r := by
  unfold readLeaf at h
  split at h
  next => cases h
  next =>
    simp only [Option.bind_eq_bind, Option.bind_eq_some_iff] at h
    obtain ⟨⟨tag, v⟩, htag, name, hname, ⟨raw, e⟩, hend, heq⟩ := h
    cases heq
    obtain ⟨htag0, hv0⟩ := splitTag_clean htag hp
    obtain ⟨hraw, he⟩ := strstr_clean hend hv0
    exact ⟨⟨dsmlAttr_no_nul hname htag0, hraw⟩, clean_drop he⟩

theorem readLeaves_clean (fuel : Nat) {ls : List DsmlParam} (h : readLeaves syn fuel p = some (ls, r))
    (hp : (0 : UInt8) ∉ p) : (∀ l ∈ ls, l.Clean) ∧ (0 : UInt8) ∉ r := by
  induction fuel generalizing p ls with
  | zero => cases h
  | succ fuel ih =>
    unfold readLeaves at h
    simp only [] at h
    split at h
    next =>
      cases h
      exact ⟨fun l hl => absurd hl List.not_mem_nil, skipWs_no_nul hp⟩
    next =>
      simp only [Option.bind_eq_bind, Option.bind_eq_some_iff] at h
      obtain ⟨⟨l, v⟩, hl, ⟨ls', r'⟩, hls, heq⟩ := h
      cases heq
      obtain ⟨hclean, hv⟩ := readLeaf_clean hl (skipWs_no_nul hp)
      obtain ⟨hrest, hr⟩ := ih hls hv
      exact ⟨List.forall_mem_cons.mpr ⟨hclean, hrest⟩, hr⟩

theorem readParams_clean (fuel : Nat) {ps : List CallParam} (h : readParams syn fuel p = some (ps, r))
    (hp : (0 : UInt8) ∉ p) : (∀ q ∈ ps, q.Clean) ∧ (0 : UInt8) ∉ r := by
  induction fuel generalizing p ps with
  | zero => cases h
  | succ fuel ih =>
    have hp' := skipWs_no_nul hp
    unfold readParams at h
    simp only [] at h
    split at h
    next =>
      cases h
      exact ⟨fun q hq => absurd hq List.not_mem_nil, clean_drop hp'⟩
    next =>
      split at h
      next => cases h
      next =>
        simp only [Option.bind_eq_bind, Option.bind_eq_some_iff] at h
        obtain ⟨⟨tag, value⟩, htag, name, hname, h⟩ := h
        obtain ⟨htag0, hv0⟩ := splitTag_clean htag hp'
        have hkey := dsmlAttr_no_nul hname htag0
        split at h
        next =>
          simp only [Option.bind_eq_some_iff] at h
          obtain ⟨⟨ls, r1⟩, hobj, ⟨ps', r2⟩, hps, heq⟩ := h
          cases heq
          unfold readObject at hobj
          split at hobj
          next => cases hobj
          next =>
            obtain ⟨hls, hr1⟩ := readLeaves_clean _ hobj hv0
            have hnext : (0 : UInt8) ∉ if startsWith syn.paramEnd (skipWs r1) then
                (skipWs r1).drop syn.paramEnd.length else skipWs r1 := by
              split
              next => exact clean_drop (skipWs_no_nul hr1)
              next => exact skipWs_no_nul hr1
            obtain ⟨hrest, hr2⟩ := ih hps hnext
            exact ⟨List.forall_mem_cons.mpr ⟨⟨hkey, hls⟩, hrest⟩, hr2⟩
        next =>
          simp only [Option.bind_eq_some_iff] at h
          obtain ⟨⟨raw, e⟩, hend, ⟨ps', r2⟩, hps, heq⟩ := h
          cases heq
          obtain ⟨hraw, he⟩ := strstr_clean hend hv0
          obtain ⟨hrest, hr2⟩ := ih hps (clean_drop he)
          exact ⟨List.forall_mem_cons.mpr ⟨⟨hkey, hraw⟩, hrest⟩, hr2⟩

theorem skipMarkers_clean (fuel : Nat) (hp : (0 : UInt8) ∉ p) : (0 : UInt8) ∉ skipMarkers syn fuel p := by
  induction fuel generalizing p with
  | zero => exact hp
  | succ fuel ih =>
    unfold skipMarkers
    split
    next => exact ih (skipWs_no_nul (clean_drop hp))
    next => exact hp

theorem readCalls_clean (fuel : Nat) {calls : List ReadCall} (h : readCalls syn fuel p = some (calls, r))
    (hp : (0 : UInt8) ∉ p) : ∀ c ∈ calls, ∀ q ∈ c.params, q.Clean := by
  induction fuel generalizing p calls with
  | zero => cases h
  | succ fuel ih =>
    have hp' : (0 : UInt8) ∉ skipOpening syn p := skipMarkers_clean _ (skipWs_no_nul hp)
    unfold readCalls at h
    simp only [] at h
    split at h
    next =>
      cases h
      exact fun c hc => absurd hc List.not_mem_nil
    next =>
      split at h
      next => cases h
      next =>
        simp only [Option.bind_eq_bind, Option.bind_eq_some_iff] at h
        obtain ⟨⟨tag, body⟩, htag, name, -, ⟨ps, r1⟩, hps, ⟨rest, r2⟩, hrest, heq⟩ := h
        cases heq
        obtain ⟨hclean, hr1⟩ := readParams_clean _ hps (splitTag_clean htag hp').2
        exact List.forall_mem_cons.mpr ⟨hclean, ih hrest hr1⟩

end

/-- The readers of a C string read C strings. -/
theorem readMessage_clean {text : Bytes} {requireThinkingClosed : Bool} (htext : (0 : UInt8) ∉ text)
    {calls : List ReadCall} (h : readMessage text requireThinkingClosed = some calls) :
    ∀ c ∈ calls, ∀ q ∈ c.params, q.Clean := by
  unfold readMessage at h
  simp only [] at h
  split at h
  next =>
    cases h
    exact fun c hc => absurd hc List.not_mem_nil
  next toolSearch hsearch =>
    have hclean : (0 : UInt8) ∉ toolSearch := by
      split at hsearch
      next =>
        obtain ⟨r, hr, rfl⟩ := Option.map_eq_some_iff.mp hsearch
        exact fun h0 => htext ((findLastSubstr_suffix hr).1.subset (List.mem_of_mem_drop h0))
      next => exact Option.some.inj hsearch ▸ htext
    split at h
    next =>
      cases h
      exact fun c hc => absurd hc List.not_mem_nil
    next style a start hstart =>
      simp only [Option.bind_eq_bind, Option.bind_eq_some_iff] at h
      obtain ⟨⟨b, p⟩, hp, ⟨cs, r⟩, hcs, heq⟩ := h
      cases heq
      have hstart0 : (0 : UInt8) ∉ start := by
        obtain ⟨c, -, hc⟩ := List.exists_of_findSome?_eq_some hstart
        obtain ⟨⟨x, y⟩, hxy, heq⟩ := Option.map_eq_some_iff.mp hc
        cases heq
        exact (strstr_clean hxy hclean).2
      exact readCalls_clean _ hcs (clean_drop (strstr_clean hp hstart0).2)

end Ds4.Server
