import Ds4.Server.JsonStandard
import Ds4.Server.ParsedCalls

/- The arguments of a generated call as they go to the client.

   The parser writes an arguments text, the sender reads it back and writes an object
   of what it read. A bare value is one handed over as it stands: the parser keeps the
   value at its start, or all of it where none is there.

   PROVED here: the object is one of the standard, with the members of the call where
   all its bare values are JSON, exactly where the values read are of the standard,
   none nests too deep and no bare string has an escaped NUL (`arguments_delivered`). -/
namespace Ds4.Server
open Bytes

/-! ## What a call's object should be -/

/-- A JSON value of the standard between blanks. -/
def JsonText (raw : Bytes) : Prop :=
  ∃ w v w', raw = w ++ (v ++ w') ∧ StandardBlank w ∧ StandardBlank w' ∧ IsJson v

/-- The text without the blanks outside its strings. -/
def compactText (raw : Bytes) : Bytes := jsonMinifyLoop false false raw

/-- What a string literal at the start of the text reads as, an escaped NUL included. -/
def literalValue (s : Bytes) : Bytes := ((jsonStringBody (s.drop 1).length (s.drop 1)).map Prod.fst).getD []

/-- A value handed over to be written as it stands. -/
def Bare (type : Bytes) : Prop := type ≠ utf8 "true"

instance (type : Bytes) : Decidable (Bare type) := inferInstanceAs (Decidable (_ ≠ _))

theorem bare_false : Bare (utf8 "false") := by decide

/-- The member of a leaf inside an object. -/
def DsmlParam.inner (l : DsmlParam) : JsonArg :=
  if Bare l.type then { key := l.key, value := compactText l.raw, isString := false }
  else { key := l.key, value := dsmlUnescapeText l.raw, isString := true }

/-- The member of a leaf of the call: a bare string is a string. -/
def DsmlParam.outer (l : DsmlParam) : JsonArg :=
  if Bare l.type ∧ startsWith [34] (skipWs l.raw) = true then
    { key := l.key, value := literalValue (skipWs l.raw), isString := true }
  else l.inner

def CallParam.member : CallParam → JsonArg
  | .leaf l => l.outer
  | .object key ls => { key := key, value := 123 :: pairsText (ls.map DsmlParam.inner), isString := false }

/-- The bare values of a parameter. -/
def CallParam.bareValues : CallParam → List Bytes
  | .leaf l => if Bare l.type then [l.raw] else []
  | .object _ ls => (ls.filter fun l => Bare l.type).map (·.raw)

def CallParam.AllJson (q : CallParam) : Prop := ∀ raw ∈ q.bareValues, JsonText raw

/-- Every bare value of the call is a JSON text. -/
def ReadCall.AllJson (c : ReadCall) : Prop := ∀ q ∈ c.params, q.AllJson

/-- The client gets a JSON object, and the members of the call where the call has JSON. -/
def ReadCall.Delivered (c : ReadCall) : Prop :=
  (startsWith [123] (appendJsonObjectOrEmpty c.call.arguments) = true ∧
    IsJson (appendJsonObjectOrEmpty c.call.arguments)) ∧
  (c.AllJson → appendJsonObjectOrEmpty c.call.arguments = 123 :: pairsText (c.params.map CallParam.member))

/-! ## Where it is -/

/-- There is a value to read at the start of a bare parameter. -/
def CallParam.Readable (q : CallParam) : Prop := Bare q.type → (jsonRawValue q.value).isSome = true

/-- That value is of the standard; a string may be any the reader takes. -/
def CallParam.Standard (q : CallParam) : Prop :=
  Bare q.type → startsWith [34] (skipWs q.value) = false → IsJson (jsonMinifyRawValue q.value)

/-- A bare string has no escaped NUL. -/
def CallParam.NulFree (q : CallParam) : Prop :=
  Bare q.type → startsWith [34] (skipWs q.value) = true → (0 : UInt8) ∉ literalValue (skipWs q.value)

/-- What the call's bare values have to be. Where one of them has no value at its start,
    it is joined to the text after it: then it is about what is read of the whole. -/
structure ReadCall.Sendable (c : ReadCall) : Prop where
  json : c.AllJson → ∀ q ∈ c.params, q.Readable ∧ q.NulFree
  standard : (∀ q ∈ c.params, q.Readable) → ∀ q ∈ c.params, q.Standard
  joined : (¬ ∀ q ∈ c.params, q.Readable) → ∀ args, jsonArgsParse c.call.arguments = some args →
    ∀ a ∈ args, StandardArg a

/-! ## Spelled values -/

section
variable {d : Nat} {v w w' m raw x r : Bytes}

theorem compact_blank (hw : Blank w) : compactText w = [] := by
  have h := jsonMinifyLoop_blank hw []
  rw [List.append_nil] at h
  exact h

theorem compact_spell (h : JsonSpell .value d v m) (hw : Blank w) (hw' : Blank w') :
    compactText (w ++ (v ++ w')) = m := by
  have hend := compact_blank hw'
  rw [compactText] at hend ⊢
  rw [jsonMinifyLoop_blank hw, h.minify, hend, List.append_nil]

theorem JsonSpell.quote_append (h : JsonSpell .value d v m) (k : Bytes) :
    startsWith [34] (v ++ k) = startsWith [34] v := by
  cases v with
  | nil => exact absurd rfl h.ne_nil
  | cons c v => rfl

/-- A literal reads as a C string, whatever stands after it. -/
theorem literal_spell {t : Bytes} (ht : JsonBody t) (k : Bytes) :
    StringSpell (34 :: t ++ [34]) (cstr (literalValue (34 :: t ++ 34 :: k))) := by
  obtain ⟨v, hv⟩ := jsonString_complete ht
  have hread := hv k
  rw [List.cons_append, jsonString_quote] at hread
  obtain ⟨⟨out, r⟩, hbody, heq⟩ := Option.map_eq_some_iff.mp hread
  obtain ⟨rfl, -⟩ := Prod.mk.inj heq
  have hlit : literalValue (34 :: t ++ 34 :: k) = out := by
    rw [literalValue, List.cons_append, List.drop_succ_cons, List.drop_zero, hbody]
    rfl
  rw [hlit]
  refine ⟨t, ht, rfl, fun k => ?_⟩
  rw [List.append_assoc]
  exact hv k

theorem JsonText.spell (h : JsonText raw) :
    ∃ d w v w' m, raw = w ++ (v ++ w') ∧ Blank w ∧ Blank w' ∧ JsonSpell .value d v m ∧ compactText raw = m := by
  obtain ⟨w, v, w', rfl, hw, hw', m, hv⟩ := h
  obtain ⟨d, hd⟩ := hv.spell
  exact ⟨d, w, v, w', m, rfl, hw.blank, hw'.blank, hd, compact_spell hd hw.blank hw'.blank⟩

/-- What the minifier makes of a spelled value: the value without its blanks where it
    nests within the limit, the text as it is elsewhere. -/
theorem minify_spell (h : JsonSpell .value d v m) (hw : Blank w) (hw' : Blank w') :
    jsonMinifyRawValue (w ++ (v ++ w')) =
      if (jsonRawValue (w ++ (v ++ w'))).isSome then m else w ++ (v ++ w') := by
  unfold jsonMinifyRawValue
  cases hraw : jsonRawValue (w ++ (v ++ w')) with
  | none => rfl
  | some s =>
    obtain ⟨x, r⟩ := s
    have hhead : jsonRawValue (v ++ w') = some (x, r) := by
      unfold jsonRawValue at hraw ⊢
      rwa [skipWs_append hw] at hraw
    obtain ⟨rfl, -, -⟩ := h.rawValue_unique hw'.delimited hhead
    exact h.minify_whole

/-! ## The members read -/

/-- What is read of a bare value. -/
def bareRead (key value : Bytes) : JsonArg :=
  if startsWith [34] (skipWs value) = true then
    { key := key, value := cstr (literalValue (skipWs value)), isString := true }
  else { key := key, value := jsonMinifyRawValue value, isString := false }

def CallParam.read (q : CallParam) : JsonArg :=
  if Bare q.type then bareRead q.key q.value else { key := q.key, value := q.value, isString := true }

theorem bareRead_spell (key : Bytes) (hraw : jsonRawValue raw = some (x, r)) :
    jsonMinifyRawValue raw ≠ [] ∧ ValueSpell (bareRead key raw) (jsonMinifyRawValue raw) := by
  obtain ⟨m, hm, hs⟩ := jsonRawValue_sound hraw
  have hmin : jsonMinifyRawValue raw = m := by
    rw [jsonMinifyRawValue, hraw]
    exact hm.minify_whole
  have hquote : startsWith [34] (skipWs raw) = startsWith [34] x := by rw [hs, hm.quote_append]
  refine ⟨hmin ▸ hm.minified.ne_nil, ?_⟩
  cases hq : startsWith [34] x with
  | true =>
    obtain ⟨t, ht, rfl, rfl⟩ := hm.quoted hq
    rw [bareRead, if_pos (hquote.trans hq), hmin, hs, List.append_assoc]
    exact .string rfl (literal_spell ht r)
  | false =>
    have hmq := hm.value_quote []
    rw [List.append_nil, hq] at hmq
    rw [bareRead, if_neg (by rw [hquote, hq]; exact Bool.false_ne_true), hmin]
    exact .other rfl hmq hm.minified

theorem bareRead_key (key value : Bytes) : (bareRead key value).key = key := by
  rw [bareRead]
  split <;> rfl

theorem CallParam.read_key (q : CallParam) : q.read.key = q.key := by
  rw [CallParam.read]
  split
  next => exact bareRead_key _ _
  next => rfl

theorem CallParam.Clean.key {q : CallParam} (h : q.Clean) : (0 : UInt8) ∉ q.key := by
  cases q with
  | leaf l => exact h.1
  | object key ls => exact h.1

theorem CallParam.Clean.value {q : CallParam} (h : q.Clean) (hbare : ¬ Bare q.type) : (0 : UInt8) ∉ q.value := by
  cases q with
  | leaf l =>
    have htype : l.type = utf8 "true" := not_not.mp hbare
    have hvalue : (CallParam.leaf l).value = dsmlUnescapeText l.raw := if_pos htype
    rw [hvalue]
    exact dsmlUnescapeFrom_no_nul 0 h.2
  | object key ls => exact absurd bare_false hbare

/-- A parameter's member is spelled by what the parser writes. -/
theorem CallParam.read_spell {q : CallParam} (hclean : q.Clean) (hread : q.Readable) : MemberSpell q.read q.written := by
  have hwritten : ∀ s, ValueSpell q.read s → MemberSpell q.read (jsonEscape q.key ++ utf8 ": " ++ s) := by
    intro s hs
    have h := MemberSpell.mk blank_space hs blank_nil
    rw [List.append_nil, q.read_key] at h
    rw [List.append_assoc]
    exact h
  rw [CallParam.written, toolCallJsonMember]
  by_cases hbare : Bare q.type
  · obtain ⟨⟨x, r⟩, hraw⟩ := Option.isSome_iff_exists.mp (hread hbare)
    obtain ⟨hne, hspell⟩ := bareRead_spell q.key hraw
    rw [if_neg hbare, if_neg hne]
    refine hwritten _ ?_
    rw [CallParam.read, if_pos hbare]
    exact hspell
  · rw [if_pos (not_not.mp hbare)]
    refine hwritten _ ?_
    rw [CallParam.read, if_neg hbare]
    exact .string rfl (stringSpell_escape (hclean.value hbare))

/-- With a value in each bare parameter the object has the members read. -/
theorem ReadCall.parse_read {c : ReadCall} (hclean : ∀ q ∈ c.params, q.Clean) (hread : ∀ q ∈ c.params, q.Readable) :
    jsonArgsParse c.call.arguments = some (c.params.map CallParam.read) := by
  refine jsonArgsParse_spelled (membersSpell_intercalate blank_space ?_) ?_
  · rw [List.forall₂_map_left_iff, List.forall₂_map_right_iff, List.forall₂_same]
    exact fun q hq => CallParam.read_spell (hclean q hq) (hread q hq)
  · intro a ha
    obtain ⟨q, hq, rfl⟩ := List.mem_map.mp ha
    rw [q.read_key]
    exact (hclean q hq).key

theorem CallParam.read_standard (q : CallParam) : StandardArg q.read ↔ q.Standard := by
  rw [StandardArg, CallParam.Standard, CallParam.read]
  by_cases hbare : Bare q.type
  · rw [if_pos hbare, bareRead]
    cases hq : startsWith [34] (skipWs q.value) with
    | true => simp
    | false => simp [hbare]
  · simp [hbare]

theorem object_of_parse {json : Bytes} {args : List JsonArg} (h : jsonArgsParse json = some args) :
    appendJsonObjectOrEmpty json = 123 :: pairsText args := by
  rw [appendJsonObjectOrEmpty, h]
  rfl

theorem object_of_none {json : Bytes} (h : jsonArgsParse json = none) : appendJsonObjectOrEmpty json = [123, 125] := by
  rw [appendJsonObjectOrEmpty, h]
  rfl

/-! ## A call of JSON values -/

/-- The value of a bare parameter, spelled, with the blanks around it. -/
def BareSpell (q : CallParam) : Prop :=
  ∃ d w v w' m, q.value = w ++ (v ++ w') ∧ Blank w ∧ Blank w' ∧ JsonSpell .value d v m ∧
    (startsWith [34] v = false → q.member = { key := q.key, value := m, isString := false }) ∧
    (startsWith [34] v = true →
      q.member = { key := q.key, value := literalValue (skipWs q.value), isString := true })

/-- A leaf inside an object, as the parser writes it, is its member spelled. -/
theorem inner_item {l : DsmlParam} (h : Bare l.type → JsonText l.raw) :
    ∃ d i w, l.written = i ++ w ∧ Blank w ∧ JsonSpell (.item true) d i (appendJsonArgPair l.inner) := by
  have hpair := appendJsonArgPair_eq l.inner []
  rw [List.append_nil, List.append_nil] at hpair
  have hitem : ∀ {d : Nat} {w v w' m : Bytes}, Blank w → Blank w' → JsonSpell .value d v m → m = argValueText l.inner →
      l.inner.key = l.key → ∃ d i u, jsonEscape l.key ++ utf8 ": " ++ (w ++ (v ++ w')) = i ++ u ∧ Blank u ∧
        JsonSpell (.item true) d i (appendJsonArgPair l.inner) := by
    rintro d w v w' m hw hw' hv rfl hkey
    have hi := JsonSpell.member blank_nil (jsonEscapeFragment_body l.key) blank_nil (blank_space.append hw) hv
    have hcolon : utf8 ": " = [58, 32] := rfl
    rw [hpair, hkey]
    refine ⟨d, _, w', ?_, hw', hi⟩
    simp [jsonEscape, hcolon]
  rw [DsmlParam.written, toolCallJsonMember, dsmlParamValue]
  by_cases hbare : Bare l.type
  · have hinner : l.inner = { key := l.key, value := compactText l.raw, isString := false } := if_pos hbare
    obtain ⟨d, w, v, w', m, hraw, hw, hw', hv, hm⟩ := (h hbare).spell
    have hvalue : argValueText l.inner = m := by
      rw [hinner, ← hm]
      rfl
    have hkey : l.inner.key = l.key := by rw [hinner]
    have hmin := minify_spell hv hw hw'
    rw [← hraw] at hmin
    rw [if_neg hbare, if_neg hbare, hmin]
    split
    next =>
      -- the value without its blanks
      have hne : m ≠ [] := hv.minified.ne_nil
      have h := hitem blank_nil blank_nil hv.minified hvalue.symm hkey
      rw [List.nil_append, List.append_nil] at h
      rwa [if_neg hne]
    next =>
      have hne : l.raw ≠ [] := by
        rw [hraw]
        exact List.append_ne_nil_of_right_ne_nil _ (List.append_ne_nil_of_left_ne_nil hv.ne_nil _)
      rw [if_neg hne, hraw]
      exact hitem hw hw' hv hvalue.symm hkey
  · have hinner : l.inner = { key := l.key, value := dsmlUnescapeText l.raw, isString := true } := if_neg hbare
    have htype : l.type = utf8 "true" := not_not.mp hbare
    have h := hitem (d := 0) blank_nil blank_nil (.string (jsonEscapeFragment_body (dsmlUnescapeText l.raw)))
      (by rw [hinner]; rfl) (by rw [hinner])
    rw [List.nil_append, List.append_nil] at h
    rw [if_pos htype, if_pos htype]
    exact h

/-- The leaves between commas are the items of the object. -/
theorem inner_items {ls : List DsmlParam} (hne : ls ≠ []) (h : ∀ l ∈ ls, Bare l.type → JsonText l.raw) :
    ∃ d, JsonSpell (.items true) d ((utf8 ", ").intercalate (ls.map DsmlParam.written) ++ [125])
      (pairsText (ls.map DsmlParam.inner)) := by
  have hcomma : utf8 ", " = [44, 32] := rfl
  induction ls with
  | nil => exact absurd rfl hne
  | cons l ls ih =>
    obtain ⟨d, i, w, hwritten, hw, hi⟩ := inner_item (h l List.mem_cons_self)
    cases ls with
    | nil =>
      refine ⟨d, ?_⟩
      rw [List.map_singleton, List.map_singleton, List.intercalate_singleton, pairsText_one, hwritten, List.append_assoc]
      exact .last true hi hw
    | cons l' ls =>
      obtain ⟨e, he⟩ := ih (by simp) fun a ha => h a (List.mem_cons_of_mem _ ha)
      have hrest := (he.blank_items blank_space).mono d
      rw [Nat.add_comm] at hrest
      refine ⟨d + e, ?_⟩
      have hitems := JsonSpell.cons true (hi.mono e) hw hrest
      rw [List.map_cons, List.map_cons, List.map_cons, List.map_cons, List.intercalate_cons_cons, pairsText_cons,
        hwritten, hcomma]
      rw [List.map_cons, hcomma] at hitems
      simp only [List.append_assoc, List.cons_append, List.nil_append] at hitems ⊢
      exact hitems

theorem leavesObject_spell {ls : List DsmlParam} (h : ∀ l ∈ ls, Bare l.type → JsonText l.raw) :
    ∃ d, JsonSpell .value d (leavesObject ls) (123 :: pairsText (ls.map DsmlParam.inner)) := by
  by_cases hne : ls = []
  · subst hne
    exact ⟨1, .empty (w := []) true blank_nil⟩
  · obtain ⟨d, hd⟩ := inner_items hne h
    exact ⟨d + 1, .node true hd⟩

theorem CallParam.AllJson.spell {q : CallParam} (h : q.AllJson) (hbare : Bare q.type) : BareSpell q := by
  cases q with
  | leaf l =>
    have hjson : JsonText l.raw := h l.raw (by
      have hmem : (CallParam.leaf l).bareValues = [l.raw] := if_pos hbare
      rw [hmem]
      exact List.mem_cons_self)
    have hvalue : (CallParam.leaf l).value = l.raw := if_neg hbare
    have hinner : l.inner = { key := l.key, value := compactText l.raw, isString := false } := if_pos hbare
    obtain ⟨d, w, v, w', m, hraw, hw, hw', hv, hm⟩ := hjson.spell
    have hquote : startsWith [34] (skipWs l.raw) = startsWith [34] v := by
      rw [hraw, skipWs_append hw, hv.value_head, hv.quote_append]
    refine ⟨d, w, v, w', m, hvalue.trans hraw, hw, hw', hv, fun hq => ?_, fun hq => ?_⟩
    · have houter : l.outer = l.inner := if_neg fun hboth => by
        rw [hquote, hq] at hboth
        exact Bool.false_ne_true hboth.2
      rw [CallParam.member, houter, hinner, hm]
      rfl
    · rw [hvalue]
      exact if_pos ⟨hbare, hquote.trans hq⟩
  | object key ls =>
    have hleaves : ∀ l ∈ ls, Bare l.type → JsonText l.raw := by
      intro l hl hb
      refine h l.raw (List.mem_map.mpr ⟨l, List.mem_filter.mpr ⟨hl, ?_⟩, rfl⟩)
      simpa using hb
    obtain ⟨d, hd⟩ := leavesObject_spell hleaves
    refine ⟨d, [], leavesObject ls, [], _, ?_, blank_nil, blank_nil, hd, fun _ => rfl, fun hq => by cases hq⟩
    rw [List.append_nil]
    rfl

/-- What is read of a bare JSON value is its member, save for an escaped NUL. -/
theorem BareSpell.read {q : CallParam} (h : BareSpell q) (hbare : Bare q.type) (hread : q.Readable) :
    (startsWith [34] (skipWs q.value) = false ∧ q.read = q.member) ∨ (startsWith [34] (skipWs q.value) = true ∧
      q.read = { key := q.key, value := cstr (literalValue (skipWs q.value)), isString := true } ∧
      q.member = { key := q.key, value := literalValue (skipWs q.value), isString := true }) := by
  obtain ⟨d, w, v, w', m, hvalue, hw, hw', hv, hplain, hstring⟩ := h
  have hquote : startsWith [34] (skipWs q.value) = startsWith [34] v := by
    rw [hvalue, skipWs_append hw, hv.value_head, hv.quote_append]
  have hmin := minify_spell hv hw hw'
  rw [← hvalue, if_pos (hread hbare)] at hmin
  rw [CallParam.read, if_pos hbare, bareRead]
  cases hq : startsWith [34] v with
  | true =>
    rw [if_pos (hquote.trans hq)]
    exact .inr ⟨hquote.trans hq, rfl, hstring hq⟩
  | false =>
    rw [if_neg (by rw [hquote, hq]; exact Bool.false_ne_true), hmin, hplain hq]
    exact .inl ⟨hquote.trans hq, rfl⟩

theorem CallParam.read_string {q : CallParam} (hbare : ¬ Bare q.type) : q.read = q.member := by
  rw [CallParam.read, if_neg hbare]
  cases q with
  | leaf l =>
    have htype : l.type = utf8 "true" := not_not.mp hbare
    have hvalue : (CallParam.leaf l).value = dsmlUnescapeText l.raw := if_pos htype
    have houter : l.outer = l.inner := if_neg fun hboth => hbare hboth.1
    have hinner : l.inner = { key := l.key, value := dsmlUnescapeText l.raw, isString := true } := if_neg hbare
    rw [CallParam.member, houter, hinner, hvalue]
    rfl
  | object key ls => exact absurd bare_false hbare

theorem CallParam.read_member {q : CallParam} (hjson : q.AllJson) (hread : q.Readable) (hnul : q.NulFree) :
    q.read = q.member := by
  by_cases hbare : Bare q.type
  · rcases (hjson.spell hbare).read hbare hread with ⟨-, h⟩ | ⟨hq, hr, hm⟩
    · exact h
    · rw [hr, hm, cstr_of_no_nul (hnul hbare hq)]
  · exact CallParam.read_string hbare

theorem cstr_escape_length (s : Bytes) : (jsonEscapeFragment (cstr s)).length ≤ (jsonEscapeFragment s).length ∧
    ((0 : UInt8) ∈ s → (jsonEscapeFragment (cstr s)).length < (jsonEscapeFragment s).length) := by
  have hsplit : cstr s ++ s.dropWhile (· ≠ 0) = s := List.takeWhile_append_dropWhile
  have hlen : (jsonEscapeFragment s).length =
      (jsonEscapeFragment (cstr s)).length + (jsonEscapeFragment (s.dropWhile (· ≠ 0))).length := by
    rw [← List.length_append, jsonEscapeFragment, jsonEscapeFragment, jsonEscapeFragment, ← List.flatMap_append, hsplit]
  refine ⟨by omega, fun h => ?_⟩
  have hrest := length_jsonEscapeFragment (s.dropWhile (· ≠ 0))
  have hpos : 0 < (s.dropWhile (· ≠ 0)).length := by
    rw [List.length_pos_iff]
    intro hnil
    rw [hnil, List.append_nil] at hsplit
    exact cstr_no_nul s (hsplit.symm ▸ h)
  omega

theorem pair_string_length (key value : Bytes) :
    (appendJsonArgPair { key := key, value := value, isString := true }).length =
      (jsonEscapeFragment key).length + (jsonEscapeFragment value).length + 5 := by
  have hcolon : utf8 ":" = [58] := rfl
  simp only [appendJsonArgPair, jsonEscape, hcolon, if_true, List.length_append, List.length_cons, List.length_nil]
  omega

/-- A member loses what stands from the NUL on. -/
theorem CallParam.read_length {q : CallParam} (hjson : q.AllJson) (hread : q.Readable) :
    (appendJsonArgPair q.read).length ≤ (appendJsonArgPair q.member).length ∧
      (¬ q.NulFree → (appendJsonArgPair q.read).length < (appendJsonArgPair q.member).length) := by
  by_cases hbare : Bare q.type
  · rcases (hjson.spell hbare).read hbare hread with ⟨hq, h⟩ | ⟨hq, hr, hm⟩
    · refine ⟨by rw [h], fun hnul => absurd (fun _ hquote => ?_) hnul⟩
      rw [hq] at hquote
      cases hquote
    · obtain ⟨hle, hlt⟩ := cstr_escape_length (literalValue (skipWs q.value))
      rw [hr, hm, pair_string_length, pair_string_length]
      refine ⟨by omega, fun hnul => ?_⟩
      have hmem : (0 : UInt8) ∈ literalValue (skipWs q.value) := by_contra fun hmem => hnul fun _ _ => hmem
      have := hlt hmem
      omega
  · refine ⟨by rw [CallParam.read_string hbare], fun hnul => absurd (fun hb => absurd hb hbare) hnul⟩

/-- Members no longer than others make no longer an object, and a shorter one a shorter. -/
theorem pairsText_length {α : Type} {f g : α → JsonArg} {l : List α}
    (h : ∀ q ∈ l, (appendJsonArgPair (f q)).length ≤ (appendJsonArgPair (g q)).length) :
    (pairsText (l.map f)).length ≤ (pairsText (l.map g)).length ∧
      ((∃ q ∈ l, (appendJsonArgPair (f q)).length < (appendJsonArgPair (g q)).length) →
        (pairsText (l.map f)).length < (pairsText (l.map g)).length) := by
  induction l with
  | nil => exact ⟨le_rfl, fun ⟨q, hq, _⟩ => absurd hq List.not_mem_nil⟩
  | cons a l ih =>
    have ha := h a List.mem_cons_self
    cases l with
    | nil =>
      rw [List.map_singleton, List.map_singleton, pairsText_one, pairsText_one, List.length_append, List.length_append]
      refine ⟨by omega, ?_⟩
      rintro ⟨q, hq, hlt⟩
      rw [List.mem_singleton.mp hq] at hlt
      omega
    | cons b l =>
      obtain ⟨hle, hlt⟩ := ih fun q hq => h q (List.mem_cons_of_mem _ hq)
      simp only [List.map_cons, pairsText_cons, List.length_append, List.length_cons] at hle hlt ⊢
      refine ⟨by omega, ?_⟩
      rintro ⟨q, hq, hshort⟩
      rcases List.mem_cons.mp hq with rfl | hq
      · omega
      · have := hlt ⟨q, hq, hshort⟩
        omega

/-! ### Nested too deep -/

/-- Where the value of a bare parameter nests too deep, the reader stops. -/
theorem BareSpell.stops {q : CallParam} (h : BareSpell q) (hclean : q.Clean) (hbare : Bare q.type)
    (hnot : ¬ (jsonRawValue q.value).isSome = true) {c : UInt8} (hc : numberByte c = false) (k : Bytes) (fuel : Nat) :
    jsonArgsLoop fuel (q.written ++ c :: k) = none := by
  obtain ⟨d, w, v, w', m, hvalue, hw, hw', hv, -, -⟩ := h
  have hdeep : ∀ n, ¬ JsonSpell .value jsonMaxNesting v n := by
    intro n hn
    rw [hvalue, hn.rawValue hw hw'.delimited] at hnot
    exact hnot rfl
  have hplain : startsWith [34] v = false := by
    rw [Bool.eq_false_iff]
    intro hq
    obtain ⟨t, ht, rfl, -⟩ := hv.quoted hq
    exact hdeep _ (.string ht)
  have hraw : jsonRawValue (v ++ (w' ++ c :: k)) = none := by
    cases hr : jsonRawValue (v ++ (w' ++ c :: k)) with
    | none => rfl
    | some s =>
      obtain ⟨-, -, n, hn⟩ := hv.rawValue_unique (delimited_blank hw' hc k) hr
      exact absurd hn (hdeep n)
  have hmin := minify_spell hv hw hw'
  rw [← hvalue, if_neg hnot] at hmin
  have hne : q.value ≠ [] := by
    rw [hvalue]
    exact List.append_ne_nil_of_right_ne_nil _ (List.append_ne_nil_of_left_ne_nil hv.ne_nil _)
  have htext : q.written ++ c :: k = jsonEscape q.key ++ 58 :: ([32] ++ w ++ (v ++ (w' ++ c :: k))) := by
    have hcolon : utf8 ": " = [58, 32] := rfl
    rw [CallParam.written, toolCallJsonMember, if_neg hbare, hmin, if_neg hne, hvalue, hcolon]
    simp
  cases fuel with
  | zero => rfl
  | succ fuel =>
    rw [htext, jsonArgsLoop, jsonString_escape hclean.key, if_neg (by simp [jsonEscape])]
    simp only [Option.bind_eq_bind, Option.bind_some, skipWs_cons (c := 58) rfl, List.drop_succ_cons,
      List.drop_zero, skipWs_append (blank_space.append hw), hv.value_head]
    rw [if_neg (by simp), jsonArgValue, hv.quote_append, if_neg (by rw [hplain]; exact Bool.false_ne_true), hraw]
    rfl

theorem CallParam.written_head (q : CallParam) : ∃ r, q.written = 34 :: r := ⟨_, rfl⟩

theorem params_head (q : CallParam) (ps : List CallParam) :
    ∃ r, (utf8 ", ").intercalate ((q :: ps).map CallParam.written) ++ [125] = 34 :: r := by
  obtain ⟨r, hr⟩ := q.written_head
  cases ps with
  | nil =>
    rw [List.map_singleton, List.intercalate_singleton, hr]
    exact ⟨_, rfl⟩
  | cons q' ps =>
    rw [List.map_cons, List.map_cons, List.intercalate_cons_cons, hr]
    exact ⟨_, rfl⟩

/-- One parameter that nests too deep stops the reader of the whole object. -/
theorem params_stop {ps : List CallParam} (hclean : ∀ q ∈ ps, q.Clean) (hjson : ∀ q ∈ ps, q.AllJson)
    (hnot : ¬ ∀ q ∈ ps, q.Readable) (fuel : Nat) :
    jsonArgsLoop fuel ((utf8 ", ").intercalate (ps.map CallParam.written) ++ [125]) = none := by
  induction ps generalizing fuel with
  | nil => exact absurd (fun q hq => absurd hq List.not_mem_nil) hnot
  | cons q ps ih =>
    have hq := hclean q List.mem_cons_self
    -- the byte after the parameter, and the round that reads on from it
    obtain ⟨c, k, hc, htext, hnext⟩ : ∃ c k, (numberByte c = false ∧ isSpace c = false) ∧
        (utf8 ", ").intercalate ((q :: ps).map CallParam.written) ++ [125] = q.written ++ c :: k ∧
        (q.Readable → ∀ fuel, jsonArgsLoop fuel (skipWs (skipComma (c :: k))) = none) := by
      cases ps with
      | nil =>
        refine ⟨125, [], by decide, by simp, fun hread => absurd ?_ hnot⟩
        intro p hp
        rw [List.mem_singleton.mp hp]
        exact hread
      | cons q' ps =>
        refine ⟨44, 32 :: ((utf8 ", ").intercalate ((q' :: ps).map CallParam.written) ++ [125]), by decide, ?_, ?_⟩
        · have hcomma : utf8 ", " = [44, 32] := rfl
          rw [List.map_cons, List.map_cons, List.intercalate_cons_cons, hcomma]
          simp
        · intro hread fuel
          obtain ⟨r, hr⟩ := params_head q' ps
          have hrest := ih (fun p hp => hclean p (List.mem_cons_of_mem _ hp))
            (fun p hp => hjson p (List.mem_cons_of_mem _ hp))
            (fun hall => hnot (List.forall_mem_cons.mpr ⟨hread, hall⟩)) fuel
          rw [hr] at hrest ⊢
          exact hrest
    rw [htext]
    by_cases hread : q.Readable
    · cases fuel with
      | zero => rfl
      | succ fuel =>
        have hkey : (0 : UInt8) ∉ q.read.key := q.read_key ▸ hq.key
        rw [jsonArgsLoop_member hkey (CallParam.read_spell hq hread) hc, hnext hread]
        rfl
    · obtain ⟨hbare, hnone⟩ := Classical.not_imp.mp hread
      exact ((hjson q List.mem_cons_self).spell hbare).stops hq hbare hnone hc.1 k fuel

theorem ReadCall.parse_deep {c : ReadCall} (hclean : ∀ q ∈ c.params, q.Clean) (hjson : c.AllJson)
    (hnot : ¬ ∀ q ∈ c.params, q.Readable) : jsonArgsParse c.call.arguments = none := by
  have hskip : skipWs ((utf8 ", ").intercalate (c.params.map CallParam.written) ++ [125]) =
      (utf8 ", ").intercalate (c.params.map CallParam.written) ++ [125] := by
    cases c.params with
    | nil => rfl
    | cons q ps =>
      obtain ⟨r, hr⟩ := params_head q ps
      rw [hr]
      rfl
  have hstop := params_stop hclean hjson hnot
    ((utf8 ", ").intercalate (c.params.map CallParam.written) ++ [125]).length
  rw [ReadCall.call, jsonArgsParse, List.cons_append, skipWs_cons (c := 123) rfl]
  simp only [startsWith_cons_cons, beq_self_eq_true, startsWith_nil, Bool.and_self, if_true,
    List.drop_succ_cons, List.drop_zero, hskip]
  exact hstop

end

/-! ## Delivered -/

/-- A call goes out as it should exactly where its bare values are fit to be sent. -/
theorem ReadCall.delivered_iff {c : ReadCall} (hclean : ∀ q ∈ c.params, q.Clean) : c.Delivered ↔ c.Sendable := by
  unfold ReadCall.Delivered
  by_cases hread : ∀ q ∈ c.params, q.Readable
  · have hparse := ReadCall.parse_read hclean hread
    have hstandard : IsJson (123 :: pairsText (c.params.map CallParam.read)) ↔ ∀ q ∈ c.params, q.Standard := by
      rw [standardObject_iff (jsonArgsParse_ok hparse), List.forall_mem_map]
      exact forall₂_congr fun q _ => q.read_standard
    rw [object_of_parse hparse]
    constructor
    · rintro ⟨⟨-, hjson⟩, hmembers⟩
      refine ⟨fun hall => ?_, fun _ => hstandard.mp hjson, fun hnot => absurd hread hnot⟩
      have hpairs := fun q hq => CallParam.read_length (hall q hq) (hread q hq)
      have hlength : (pairsText (c.params.map CallParam.read)).length = (pairsText (c.params.map CallParam.member)).length :=
        congrArg List.length (List.cons.inj (hmembers hall)).2
      intro q hq
      refine ⟨hread q hq, by_contra fun hnul => ?_⟩
      -- one value cut short makes the object shorter
      have hlt := (pairsText_length fun q hq => (hpairs q hq).1).2 ⟨q, hq, (hpairs q hq).2 hnul⟩
      exact Nat.ne_of_lt hlt hlength
    · rintro ⟨hjson, hstd, -⟩
      refine ⟨⟨rfl, hstandard.mpr (hstd hread)⟩, fun hall => ?_⟩
      rw [List.map_congr_left fun q hq => CallParam.read_member (hall q hq) (hread q hq) (hjson hall q hq).2]
  · constructor
    · rintro ⟨⟨-, hjson⟩, hmembers⟩
      refine ⟨fun hall => ?_, fun h => absurd h hread, fun _ args hargs => ?_⟩
      · -- the empty object is not the members'
        have hempty := hmembers hall
        rw [object_of_none (ReadCall.parse_deep hclean hall hread)] at hempty
        cases hps : c.params with
        | nil => exact fun q hq => absurd hq List.not_mem_nil
        | cons q ps =>
          obtain ⟨r, hr⟩ := pairsText_head q.member (ps.map CallParam.member)
          rw [hps, List.map_cons, hr] at hempty
          cases hempty
      · rw [object_of_parse hargs] at hjson
        exact (standardObject_iff (jsonArgsParse_ok hargs)).mp hjson
    · rintro ⟨hjson, -, hjoined⟩
      refine ⟨?_, fun hall => absurd (fun q hq => (hjson hall q hq).1) hread⟩
      cases hparse : jsonArgsParse c.call.arguments with
      | none =>
        rw [object_of_none hparse]
        exact ⟨rfl, _, .empty (w := []) true standardBlank_nil⟩
      | some args =>
        rw [object_of_parse hparse]
        exact ⟨rfl, (standardObject_iff (jsonArgsParse_ok hparse)).mpr (hjoined hread args hparse)⟩

/-- Each call of a message the parser accepts is a call read and goes out as it should. -/
def CallsDelivered (text : Bytes) (requireThinkingClosed : Bool) : Prop :=
  ∀ msg, parseGeneratedMessageEx text requireThinkingClosed = some msg →
    ∃ calls, readMessage text requireThinkingClosed = some calls ∧ msg.calls = calls.map ReadCall.call ∧
      ∀ c ∈ calls, c.Delivered

/-- A call with one bare value. -/
def bareCallText (value : String) : Bytes :=
  utf8 ("<tool_calls><invoke name=\"w\"><parameter name=\"c\" string=\"false\">" ++ value ++
    "</parameter></invoke></tool_calls>")

def bareCall (value : String) : ReadCall :=
  { name := utf8 "w", params := [.leaf { key := utf8 "c", type := utf8 "false", raw := utf8 value }] }

theorem not_json_nan : ¬ IsJson (utf8 "NaN") := by
  rintro ⟨m, hm⟩
  generalize htext : utf8 "NaN" = s at hm
  cases hm with
  | string => cases htext
  | word ht =>
    simp only [List.mem_cons, List.not_mem_nil, or_false] at ht
    rcases ht with rfl | rfl | rfl <;> cases htext
  | number hn =>
    obtain ⟨c, r, rfl, hc⟩ := hn.head
    obtain rfl : 78 = c := (List.cons.inj htext).1
    rcases hc with hc | hc <;> cases hc
  | empty b => cases b <;> cases htext
  | node b => cases b <;> cases htext

end Ds4.Server
