import Ds4.Server.DsmlRoundTrip

/- Tool blocks without nesting: every parameter carries its `string` attribute.

   `ReadsCalls` says how such a block is walked, tag by tag, by whoever reads it.
   PROVED here: the parser makes the calls of the walk (`ReadsCalls.parseInvokes`),
   and where every value that is no text is one JSON value, the object a reader
   spells by passing each value on as it stands has the members of the object the
   parser writes (`DsmlCall.members_eq`). -/
namespace Ds4.Server
open Bytes

/-! ## The walk -/

structure DsmlParam where
  key : Bytes
  type : Bytes
  raw : Bytes

structure DsmlCall where
  name : Bytes
  params : List DsmlParam

/-- The parameters from a place in the text, and the text after the call. -/
inductive ReadsParams (syn : DsmlSyntax) : Bytes → List DsmlParam → Bytes → Prop
  | close {p : Bytes} : startsWith syn.invokeEnd (skipWs p) = true →
      ReadsParams syn p [] ((skipWs p).drop syn.invokeEnd.length)
  | param {p tag value key type raw e r : Bytes} {ps : List DsmlParam} :
      startsWith syn.invokeEnd (skipWs p) = false → startsWith syn.paramStart (skipWs p) = true →
      splitTag (skipWs p) = some (tag, value) → dsmlAttr tag (utf8 "name") = some key →
      dsmlAttr tag (utf8 "string") = some type → strstr syn.paramEnd value = some (raw, e) →
      ReadsParams syn (e.drop syn.paramEnd.length) ps r →
      ReadsParams syn p ({ key := key, type := type, raw := raw } :: ps) r

/-- Blanks and echoed markers up to the next tag, with a condition on each echo. -/
inductive Opening (syn : DsmlSyntax) (whole : Bytes → Prop) : Bytes → Bytes → Prop
  | here {p : Bytes} : startsWith syn.toolCallsStart (skipWs p) = false → Opening syn whole p (skipWs p)
  | marker {p q : Bytes} : startsWith syn.toolCallsStart (skipWs p) = true → whole (skipWs p) →
      Opening syn whole ((skipWs p).drop syn.toolCallsStart.length) q → Opening syn whole p q

/-- The calls from a place in the text up to the end of the block. -/
inductive ReadsCalls (syn : DsmlSyntax) (whole : Bytes → Prop) : Bytes → List DsmlCall → Prop
  | close {p : Bytes} : startsWith syn.toolCallsEnd (skipOpening syn p) = true → ReadsCalls syn whole p []
  | call {p q tag body name r : Bytes} {ps : List DsmlParam} {calls : List DsmlCall} :
      Opening syn whole p q → startsWith syn.toolCallsEnd q = false →
      startsWith syn.invokeStart q = true → splitTag q = some (tag, body) →
      dsmlAttr tag (utf8 "name") = some name → ReadsParams syn body ps r → ReadsCalls syn whole r calls →
      ReadsCalls syn whole p ({ name := name, params := ps } :: calls)

/-! ## Tags -/

theorem splitTag_sound {s tag value : Bytes} (h : splitTag s = some (tag, value)) :
    s = tag ++ value ∧ 0 < tag.length := by
  obtain ⟨⟨a, r⟩, hr, he⟩ := Option.map_eq_some_iff.mp h
  obtain ⟨hs, h62⟩ := strstr_sound hr
  obtain ⟨x, hx⟩ := startsWith_iff.mp h62
  cases he
  refine ⟨?_, by simp⟩
  rw [hs, hx]
  simp

theorem dsmlUnescapeFrom_no_nul : ∀ (n : Nat) {s : Bytes}, (0 : UInt8) ∉ s → (0 : UInt8) ∉ dsmlUnescapeFrom n s
  | _, [], _ => by simp [dsmlUnescapeFrom]
  | n + 1, c :: s, h => by
    rw [List.mem_cons, not_or] at h
    exact dsmlUnescapeFrom_no_nul n h.2
  | 0, c :: s, h => by
    rw [List.mem_cons, not_or] at h
    rw [dsmlUnescapeFrom]
    cases he : entityAt (c :: s) with
    | none =>
      dsimp only
      rw [List.mem_cons, not_or]
      exact ⟨h.1, dsmlUnescapeFrom_no_nul 0 h.2⟩
    | some e =>
      have hb : ∀ e ∈ dsmlEntities, (0 : UInt8) ≠ e.2 := by decide
      dsimp only
      rw [List.mem_cons, not_or]
      exact ⟨hb e (List.mem_of_find?_eq_some he), dsmlUnescapeFrom_no_nul _ h.2⟩

theorem dsmlAttr_no_nul {tag name v : Bytes} (h : dsmlAttr tag name = some v) (htag : (0 : UInt8) ∉ tag) :
    (0 : UInt8) ∉ v := by
  simp only [dsmlAttr, Option.bind_eq_bind, Option.bind_eq_some_iff] at h
  obtain ⟨⟨a, p⟩, hp, ⟨raw, r⟩, hr, he⟩ := h
  obtain ⟨htag', -⟩ := strstr_sound hp
  obtain ⟨hraw, -⟩ := strstr_sound hr
  cases he
  apply dsmlUnescapeFrom_no_nul
  intro h0
  apply htag
  rw [htag']
  apply List.mem_append_right
  apply List.mem_of_mem_drop (i := (name ++ utf8 "=\"").length)
  rw [hraw]
  exact List.mem_append_left _ h0

/-! ## The parser on the walk -/

theorem skipWs_length (s : Bytes) : (skipWs s).length ≤ s.length :=
  (List.dropWhile_suffix isSpace).length_le

theorem findLastSubstr_suffix {needle : Bytes} : ∀ {s r : Bytes}, findLastSubstr needle s = some r →
    r <:+ s ∧ startsWith needle r = true
  | [], _, h => by cases h
  | c :: s, r, h => by
    rw [findLastSubstr] at h
    split at h
    · next r' hr =>
      cases h
      obtain ⟨hs, hn⟩ := findLastSubstr_suffix hr
      exact ⟨hs.trans (List.suffix_cons c s), hn⟩
    · split at h
      · next hn =>
        cases h
        exact ⟨List.suffix_refl _, hn⟩
      · cases h

theorem skipWs_no_nul {s : Bytes} (h : (0 : UInt8) ∉ s) : (0 : UInt8) ∉ skipWs s :=
  fun h0 => h ((List.dropWhile_suffix isSpace).subset h0)

theorem ReadsParams.length {syn : DsmlSyntax} {p r : Bytes} {ps : List DsmlParam}
    (h : ReadsParams syn p ps r) : ps.length ≤ p.length ∧ r.length ≤ p.length := by
  induction h with
  | @close p _ =>
    have := skipWs_length p
    simp only [List.length_nil, List.length_drop]
    omega
  | @param p tag value key type raw e r ps _ _ htag _ _ hend _ ih =>
    have hp := skipWs_length p
    obtain ⟨hs, hpos⟩ := splitTag_sound htag
    obtain ⟨hv, -⟩ := strstr_sound hend
    rw [hs, hv] at hp
    simp only [List.length_append, List.length_drop, List.length_cons] at hp ih ⊢
    omega

/-- A parameter's member as the parser writes it. -/
def DsmlParam.written (a : DsmlParam) : Bytes :=
  toolCallJsonMember a.key (dsmlParamValue a.type a.raw) a.type

/-- **The parser reads the parameters of the walk.** -/
theorem ReadsParams.parse {syn : DsmlSyntax} {p r : Bytes} {ps : List DsmlParam}
    (h : ReadsParams syn p ps r) : ∀ (fuel : Nat) (l : List Bytes), ps.length < fuel →
      (∀ t ∈ l, t ≠ []) → parseParams syn fuel ((utf8 ", ").intercalate l) p =
        some ((utf8 ", ").intercalate (l ++ ps.map DsmlParam.written), r) := by
  induction h with
  | close hend =>
    intro fuel l hfuel _
    obtain ⟨n, rfl⟩ := Nat.exists_eq_succ_of_ne_zero (Nat.ne_of_gt hfuel)
    rw [parseParams, List.map_nil, List.append_nil]
    exact if_pos hend
  | @param p tag value key type raw e r ps hno hstart htag hkey htype hend _ ih =>
    intro fuel l hfuel hl
    obtain ⟨n, rfl⟩ := Nat.exists_eq_succ_of_ne_zero (Nat.ne_of_gt (Nat.zero_lt_of_lt hfuel))
    have hne : ∀ t ∈ l ++ [DsmlParam.written ⟨key, type, raw⟩], t ≠ [] := by
      intro t ht
      rcases List.mem_append.mp ht with ht | ht
      · exact hl t ht
      · rw [List.mem_singleton.mp ht]
        exact toolCallJsonMember_ne_nil _ _ _
    have ih := ih n (l ++ [DsmlParam.written ⟨key, type, raw⟩]) (by simpa using hfuel) hne
    rw [parseParams_skipWs (skipWs_skipWs p).symm, parseParams_leaf n (skipWs_skipWs p) hno hstart htag
      hkey htype hend, toolCallJsonArgsAdd_intercalate _ _ _ hl]
    rw [List.append_assoc] at ih
    exact ih

/-- The call as the parser makes it. -/
def DsmlCall.parsed (c : DsmlCall) : ToolCall :=
  { name := c.name, arguments := 123 :: (utf8 ", ").intercalate (c.params.map DsmlParam.written) ++ [125] }

section
variable {style : DsmlStyle}

theorem toolCallsStart_pos (style : DsmlStyle) : 0 < (dsmlSyntax style).toolCallsStart.length := by
  cases style <;> decide

theorem skipMarkers_opening {whole : Bytes → Prop} {p q : Bytes}
    (h : Opening (dsmlSyntax style) whole p q) : ∀ fuel, (skipWs p).length ≤ fuel →
      skipMarkers (dsmlSyntax style) fuel (skipWs p) = q := by
  induction h with
  | here hno => exact fun fuel _ => skipMarkers_of_not hno fuel
  | @marker p q hstart _ _ ih =>
    intro fuel hfuel
    have hpos := toolCallsStart_pos style
    have hlen := skipWs_length ((skipWs p).drop (dsmlSyntax style).toolCallsStart.length)
    obtain ⟨r, hr⟩ := startsWith_iff.mp hstart
    have hp := congrArg List.length hr
    rw [List.length_append] at hp
    rw [List.length_drop] at hlen
    cases fuel with
    | zero => omega
    | succ fuel =>
      rw [skipMarkers, if_pos hstart]
      exact ih fuel (by omega)

theorem Opening.skipOpening {whole : Bytes → Prop} {p q : Bytes}
    (h : Opening (dsmlSyntax style) whole p q) : skipOpening (dsmlSyntax style) p = q :=
  skipMarkers_opening h _ (Nat.le_refl _)

/-- Every opening is one with no condition on its echoes. -/
theorem opening_skipMarkers : ∀ (fuel : Nat) (p : Bytes), (skipWs p).length ≤ fuel →
    Opening (dsmlSyntax style) (fun _ => True) p (skipMarkers (dsmlSyntax style) fuel (skipWs p)) := by
  intro fuel
  induction fuel with
  | zero =>
    intro p hp
    have hnil : skipWs p = [] := List.length_eq_zero_iff.mp (Nat.le_zero.mp hp)
    have h := @Opening.here (dsmlSyntax style) (fun _ => True) p
      (by rw [hnil]; cases style <;> rfl)
    exact h
  | succ fuel ih =>
    intro p hp
    rw [skipMarkers]
    split
    · next hstart =>
      have hpos := toolCallsStart_pos style
      have hlen := skipWs_length ((skipWs p).drop (dsmlSyntax style).toolCallsStart.length)
      rw [List.length_drop] at hlen
      exact .marker hstart trivial (ih _ (by omega))
    · next hno => exact .here (by simpa using hno)

theorem opening_skip (p : Bytes) :
    Opening (dsmlSyntax style) (fun _ => True) p (skipOpening (dsmlSyntax style) p) :=
  opening_skipMarkers _ p (Nat.le_refl _)

theorem Opening.length {whole : Bytes → Prop} {p q : Bytes} (h : Opening (dsmlSyntax style) whole p q) :
    q.length ≤ p.length ∧ skipWs q = q ∧ startsWith (dsmlSyntax style).toolCallsStart q = false := by
  induction h with
  | @here p hno => exact ⟨skipWs_length p, skipWs_skipWs p, hno⟩
  | @marker p q _ _ _ ih =>
    refine ⟨?_, ih.2⟩
    have hp := skipWs_length p
    have := ih.1
    rw [List.length_drop] at this
    omega

theorem ReadsCalls.length {whole : Bytes → Prop} {p : Bytes} {calls : List DsmlCall}
    (h : ReadsCalls (dsmlSyntax style) whole p calls) :
    calls.length ≤ (Ds4.Server.skipOpening (dsmlSyntax style) p).length := by
  induction h with
  | close => exact Nat.zero_le _
  | @call p q tag body name r ps calls hopen _ _ htag _ hparams _ ih =>
    obtain ⟨hs, hpos⟩ := splitTag_sound htag
    have hr := hparams.length.2
    have hq := (@opening_skip style r).length.1
    rw [hopen.skipOpening, hs, List.length_append, List.length_cons]
    omega

/-- **The parser makes the calls of the walk.** -/
theorem ReadsCalls.parseInvokes {whole : Bytes → Prop} {p : Bytes} {calls : List DsmlCall}
    (h : ReadsCalls (dsmlSyntax style) whole p calls) : ∀ fuel, calls.length < fuel →
      ∃ r, parseInvokes (dsmlSyntax style) fuel p = some (calls.map DsmlCall.parsed, r) := by
  induction h with
  | close hend =>
    intro fuel hfuel
    obtain ⟨n, rfl⟩ := Nat.exists_eq_succ_of_ne_zero (Nat.ne_of_gt hfuel)
    exact ⟨_, by rw [Ds4.Server.parseInvokes]; exact if_pos hend⟩
  | @call p q tag body name r ps calls hopen hend hstart htag hname hparams _ ih =>
    intro fuel hfuel
    obtain ⟨n, rfl⟩ := Nat.exists_eq_succ_of_ne_zero (Nat.ne_of_gt (Nat.zero_lt_of_lt hfuel))
    obtain ⟨r', hr'⟩ := ih n (by simpa using hfuel)
    obtain ⟨-, hq, hmark⟩ := hopen.length
    have hargs := hparams.parse (body.length + 1) [] (Nat.lt_succ_of_le hparams.length.1) (by simp)
    rw [List.nil_append] at hargs
    have hsame : Ds4.Server.skipOpening (dsmlSyntax style) p = Ds4.Server.skipOpening (dsmlSyntax style) q := by
      rw [hopen.skipOpening, Ds4.Server.skipOpening, hq, skipMarkers_of_not hmark]
    refine ⟨r', ?_⟩
    rw [parseInvokes_opening hsame, parseInvokes_call n hq hmark hend hstart htag hname hargs, hr']
    rfl

end

/-! ## Members -/

/-- The value is a text, or one JSON value between blanks. -/
def DsmlParam.IsJson (a : DsmlParam) : Prop :=
  a.type ≠ utf8 "true" → ∃ w v w' m, a.raw = w ++ (v ++ w') ∧ Blank w ∧ Blank w' ∧
    JsonSpell .value jsonMaxNesting v m

/-- A parameter's member with its value passed on: a text as a JSON string, any
    other value as it stands. -/
def DsmlParam.streamed (a : DsmlParam) : Bytes :=
  jsonEscape a.key ++ 58 :: if a.type = utf8 "true" then jsonEscape (dsmlUnescapeText a.raw) else a.raw

theorem JsonSpell.minifyRaw_blank {w v w' m : Bytes} (h : JsonSpell .value jsonMaxNesting v m)
    (hw : Blank w) (hw' : Blank w') : jsonMinifyRawValue (w ++ (v ++ w')) = m := by
  rw [jsonMinifyRawValue, h.rawValue hw hw'.delimited]
  exact h.minify_whole

/-- A JSON value is the value of some member, in both its forms. -/
theorem JsonSpell.valueSpell {v m : Bytes} (h : JsonSpell .value jsonMaxNesting v m) (key : Bytes) :
    ∃ a : JsonArg, a.key = key ∧ ValueSpell a v ∧ ValueSpell a m := by
  cases hq : startsWith [34] v with
  | false =>
    refine ⟨⟨key, m, false⟩, rfl, .other rfl hq h, .other rfl ?_ h.minified⟩
    have hm := h.value_quote []
    rw [List.append_nil] at hm
    rw [hm, hq]
  | true =>
    obtain ⟨t, ht, rfl, rfl⟩ := h.quoted hq
    obtain ⟨s, hs⟩ := ht.stringSpell
    exact ⟨⟨key, s, true⟩, rfl, .string rfl hs, .string rfl hs⟩

/-- Both spellings of a parameter have one member. -/
theorem DsmlParam.member {a : DsmlParam} (hjson : a.IsJson) (hraw : (0 : UInt8) ∉ a.raw) :
    ∃ m : JsonArg, m.key = a.key ∧ MemberSpell m a.streamed ∧ MemberSpell m a.written := by
  by_cases htype : a.type = utf8 "true"
  · have hv := stringSpell_escape (dsmlUnescapeFrom_no_nul 0 hraw)
    have hvalue : ValueSpell ⟨a.key, dsmlUnescapeText a.raw, true⟩ (jsonEscape (dsmlUnescapeText a.raw)) :=
      .string rfl hv
    refine ⟨⟨a.key, dsmlUnescapeText a.raw, true⟩, rfl, ?_, ?_⟩
    · have h := MemberSpell.mk blank_nil hvalue blank_nil
      rw [List.append_nil] at h
      rw [DsmlParam.streamed, if_pos htype]
      exact h
    · have h := MemberSpell.mk blank_space hvalue blank_nil
      rw [List.append_nil] at h
      rw [DsmlParam.written, toolCallJsonMember, if_pos htype, dsmlParamValue, if_pos htype,
        List.append_assoc]
      exact h
  · obtain ⟨w, v, w', min, hraw', hw, hw', hv⟩ := hjson htype
    obtain ⟨m, hkey, hsv, hsm⟩ := hv.valueSpell a.key
    refine ⟨m, hkey, ?_, ?_⟩
    · rw [DsmlParam.streamed, if_neg htype, hraw', ← hkey]
      exact .mk hw hsv hw'
    · have h := MemberSpell.mk blank_space hsm blank_nil
      rw [List.append_nil] at h
      rw [DsmlParam.written, toolCallJsonMember, if_neg htype, dsmlParamValue, if_neg htype, hraw',
        hv.minifyRaw_blank hw hw', if_neg hv.minified.ne_nil, List.append_assoc, ← hkey]
      exact h

theorem ReadsParams.no_nul {syn : DsmlSyntax} {p r : Bytes} {ps : List DsmlParam}
    (h : ReadsParams syn p ps r) (hp : (0 : UInt8) ∉ p) :
    (∀ a ∈ ps, (0 : UInt8) ∉ a.key ∧ (0 : UInt8) ∉ a.raw) ∧ (0 : UInt8) ∉ r := by
  induction h with
  | close => exact ⟨by simp, fun h0 => skipWs_no_nul hp (List.mem_of_mem_drop h0)⟩
  | @param p tag value key type raw e r ps _ _ htag hkey _ hend _ ih =>
    have hs := skipWs_no_nul hp
    rw [(splitTag_sound htag).1, List.mem_append, not_or, (strstr_sound hend).1, List.mem_append,
      not_or] at hs
    obtain ⟨h1, h2⟩ := ih fun h0 => hs.2.2 (List.mem_of_mem_drop h0)
    refine ⟨?_, h2⟩
    rw [List.forall_mem_cons]
    exact ⟨⟨dsmlAttr_no_nul hkey hs.1, hs.2.1⟩, h1⟩

/-- The object whose members are passed on. -/
def DsmlCall.streamed (c : DsmlCall) : Bytes :=
  123 :: (utf8 ",").intercalate (c.params.map DsmlParam.streamed) ++ [125]

/-- **Passing the values on gives a whole object with the parser's members.** -/
theorem DsmlCall.members_eq {c : DsmlCall} (hjson : ∀ a ∈ c.params, a.IsJson)
    (hnul : ∀ a ∈ c.params, (0 : UInt8) ∉ a.key ∧ (0 : UInt8) ∉ a.raw) :
    CompleteObject c.streamed ∧ ∃ l, c.parsed.members = some l ∧ jsonArgsParse c.streamed = some l := by
  obtain ⟨name, ps⟩ := c
  obtain ⟨l, hkeys, hstream, hwrite⟩ : ∃ l : List JsonArg, (∀ a ∈ l, (0 : UInt8) ∉ a.key) ∧
      List.Forall₂ MemberSpell l (ps.map DsmlParam.streamed) ∧
      List.Forall₂ MemberSpell l (ps.map DsmlParam.written) := by
    dsimp only at hjson hnul
    induction ps with
    | nil => exact ⟨[], by simp, .nil, .nil⟩
    | cons a ps ih =>
      rw [List.forall_mem_cons] at hjson hnul
      obtain ⟨l, h1, h2, h3⟩ := ih hjson.2 hnul.2
      obtain ⟨m, hkey, hs, hw⟩ := a.member hjson.1 hnul.1.2
      refine ⟨m :: l, ?_, .cons hs h2, .cons hw h3⟩
      rw [List.forall_mem_cons]
      exact ⟨by rw [hkey]; exact hnul.1.1, h1⟩
  have hs := membersSpell_intercalate blank_nil hstream
  have hw := membersSpell_intercalate blank_space hwrite
  exact ⟨hs.complete, l, jsonArgsParse_spelled hw hkeys, jsonArgsParse_spelled hs hkeys⟩

end Ds4.Server
