import Ds4.Server.Dsml

/- The DSML codec: what `append_dsml_tool_calls_text` renders,
   `parse_generated_message_ex` reads back.

   PROVED here (`dsml_roundTrip`): the calls come back in order under their
   names, each with the same members, where a value that is not a string comes
   back as the literal the renderer wrote: the closing parameter tag inside it
   has its `<` spelled `\u003c`. ASSUMED of string members (`Carried`): the value
   spells none of the five entities the parser decodes, and the key does not end
   in `string=`, which the attribute search would take for the attribute. -/
namespace Ds4.Server
open Bytes

/-! ## Entities -/

/-- One escaped byte of an attribute. -/
theorem dsmlUnescape_attrByte (c : UInt8) (s : Bytes) :
    dsmlUnescapeText (dsmlAttrByte c ++ s) = c :: dsmlUnescapeText s := by
  unfold dsmlAttrByte
  split
  · next h => rw [h]; rfl
  · next h38 =>
    split
    · next h => rw [h]; rfl
    · split
      · next h => rw [h]; rfl
      · split
        · next h => rw [h]; rfl
        · exact dsmlUnescape_plain h38 s

theorem dsmlUnescape_attr (s : Bytes) : dsmlUnescapeText (appendDsmlAttrEscaped s) = s := by
  induction s with
  | nil => rfl
  | cons c s ih =>
    rw [appendDsmlAttrEscaped, List.flatMap_cons, dsmlUnescape_attrByte, ← appendDsmlAttrEscaped, ih]

theorem attrByte_plain (c : UInt8) : 34 ∉ dsmlAttrByte c ∧ 62 ∉ dsmlAttrByte c := by
  revert c
  apply forall_byte
  decide +kernel

/-- An escaped attribute ends neither the attribute nor the tag. -/
theorem attrEscaped_plain (s : Bytes) :
    34 ∉ appendDsmlAttrEscaped s ∧ 62 ∉ appendDsmlAttrEscaped s := by
  simp only [appendDsmlAttrEscaped, List.mem_flatMap, not_exists, not_and]
  exact ⟨fun c _ => (attrByte_plain c).1, fun c _ => (attrByte_plain c).2⟩

theorem dsmlUnescape_parameterText : ∀ {s : Bytes}, (∀ e ∈ dsmlEntities, ¬ e.1 <:+: s) →
    dsmlUnescapeText (appendDsmlParameterText s) = s
  | [], _ => rfl
  | c :: s, h => by
    have ih := dsmlUnescape_parameterText (s := s) fun e he hi => h e he (List.infix_cons hi)
    rw [appendDsmlParameterText, escapeTag]
    split
    · next hs =>
      have hc : c = 60 := by
        obtain ⟨r, hr⟩ := startsWith_iff.mp hs
        exact (List.cons.inj hr).1
      rw [hc, show dsmlUnescapeText (utf8 "&lt;" ++ escapeTag paramEndTag (utf8 "&lt;") s) =
        60 :: dsmlUnescapeText (escapeTag paramEndTag (utf8 "&lt;") s) from rfl,
        ← appendDsmlParameterText, ih]
    · have hnone : entityAt (c :: escapeTag paramEndTag (utf8 "&lt;") s) = none := by
        rw [entityAt, List.find?_eq_none]
        intro e he hs
        apply h e he
        -- an entity here has its first byte from `s` and its others untouched
        obtain ⟨l, hl, h38⟩ := entity_shape he
        rw [hl, startsWith_cons_cons, Bool.and_eq_true, beq_iff_eq] at hs
        have hpre := @startsWith_escapeTag paramEndTag (utf8 "lt;") 38 l s h38 hs.2
        obtain ⟨r, hr⟩ := startsWith_iff.mp hpre
        rw [hl, ← hs.1, hr]
        exact (List.prefix_append (38 :: l) r).isInfix
      rw [List.singleton_append, dsmlUnescapeText, dsmlUnescapeFrom, hnone]
      dsimp only
      rw [← dsmlUnescapeText, ← appendDsmlParameterText, ih]

/-! ## Tags and attributes -/

theorem splitTag_append {a : Bytes} (h : (62 : UInt8) ∉ a) (r : Bytes) :
    splitTag (a ++ 62 :: r) = some (a ++ [62], r) := by
  rw [splitTag, strchr_append h]
  rfl

/-- The attribute found is the first place its name stands before `="`. -/
theorem dsmlAttr_append (name a : Bytes) {d : UInt8} {l v : Bytes} (hname : name ++ utf8 "=\"" = d :: l) (hd : d ∉ l)
    (ha : ¬ name ++ utf8 "=\"" <:+: a) (hv : (34 : UInt8) ∉ v) (r : Bytes) :
    dsmlAttr (a ++ (name ++ utf8 "=\"" ++ (v ++ 34 :: r))) name = some (dsmlUnescapeText v) := by
  have h : strstr (name ++ utf8 "=\"") (a ++ (name ++ utf8 "=\"" ++ (v ++ 34 :: r))) =
      some (a, name ++ utf8 "=\"" ++ (v ++ 34 :: r)) := by
    rw [hname] at ha ⊢
    exact strstr_append hd (v ++ 34 :: r) a ha
  simp only [dsmlAttr, h, Option.bind_eq_bind, Option.bind_some, List.drop_left, strchr_append hv]

/-- The tag of a rendered parameter, up to its `>`. -/
def paramTag (key type : Bytes) : Bytes :=
  utf8 "<｜DSML｜parameter " ++ (utf8 "name" ++ utf8 "=\"" ++ (appendDsmlAttrEscaped key ++
    34 :: (utf8 " " ++ (utf8 "string" ++ utf8 "=\"" ++ (type ++ [34])))))

def invokeTag (name : Bytes) : Bytes :=
  utf8 "<｜DSML｜invoke " ++ (utf8 "name" ++ utf8 "=\"" ++ (appendDsmlAttrEscaped name ++ [34]))

theorem invokeTag_name (name : Bytes) :
    dsmlAttr (invokeTag name ++ [62]) (utf8 "name") = some name := by
  have h := dsmlAttr_append (utf8 "name") (utf8 "<｜DSML｜invoke ") (d := 110) (l := utf8 "ame=\"")
    (by decide) (by decide) (by decide) (attrEscaped_plain name).1 [62]
  rw [dsmlUnescape_attr] at h
  rw [← h, invokeTag]
  simp only [List.append_assoc, List.cons_append, List.nil_append]

theorem paramTag_name (key type : Bytes) :
    dsmlAttr (paramTag key type ++ [62]) (utf8 "name") = some key := by
  have h := dsmlAttr_append (utf8 "name") (utf8 "<｜DSML｜parameter ") (d := 110) (l := utf8 "ame=\"")
    (by decide) (by decide) (by decide) (attrEscaped_plain key).1
    (utf8 " " ++ (utf8 "string" ++ utf8 "=\"" ++ (type ++ [34])) ++ [62])
  rw [dsmlUnescape_attr] at h
  rw [← h, paramTag]
  simp only [List.append_assoc, List.cons_append]

theorem attrByte_last (c : UInt8) : dsmlAttrByte c = [c] ∨ (dsmlAttrByte c).getLast? = some 59 := by
  revert c
  apply forall_byte
  decide +kernel

/-- A key ends in a plain text exactly where its escaped form does. -/
theorem attrEscaped_suffix {lit : Bytes} (hlit : (59 : UInt8) ∉ lit) :
    ∀ {key : Bytes}, lit <:+ appendDsmlAttrEscaped key →
      ∃ k, key = k ++ lit ∧ appendDsmlAttrEscaped key = appendDsmlAttrEscaped k ++ lit := by
  induction lit using List.reverseRecOn with
  | nil => exact fun _ => ⟨_, (List.append_nil _).symm, (List.append_nil _).symm⟩
  | append_singleton lit c ih =>
    intro key h
    obtain ⟨t, ht⟩ := h
    rw [List.mem_append, not_or, List.mem_singleton] at hlit
    cases List.eq_nil_or_concat key with
    | inl hnil =>
      rw [hnil] at ht
      simp [appendDsmlAttrEscaped] at ht
    | inr hsnoc =>
      obtain ⟨key', x, rfl⟩ := hsnoc
      rw [List.concat_eq_append] at ht ⊢
      have hesc : appendDsmlAttrEscaped (key' ++ [x]) = appendDsmlAttrEscaped key' ++ dsmlAttrByte x := by
        simp [appendDsmlAttrEscaped]
      rw [hesc, ← List.append_assoc] at ht
      rcases attrByte_last x with hx | hx
      · rw [hx] at ht
        obtain ⟨hlit', hc⟩ := List.append_inj' ht rfl
        obtain rfl := List.singleton_inj.mp hc
        obtain ⟨k, hk, he⟩ := ih hlit.1 ⟨t, hlit'⟩
        refine ⟨k, by rw [hk, List.append_assoc], ?_⟩
        rw [hesc, hx, he, List.append_assoc]
      · -- an entity ends in `;`
        obtain ⟨p, hp⟩ := List.getLast?_eq_some_iff.mp hx
        rw [hp, ← List.append_assoc] at ht
        obtain ⟨-, hc⟩ := List.append_inj' ht rfl
        exact absurd (List.singleton_inj.mp hc).symm hlit.2

/-- The type the parser sees: the rendered one, unless the key ends in `string=`,
    and then never `true`. -/
theorem paramTag_string (key : Bytes) (b : Bool) :
    ∃ type, dsmlAttr (paramTag key (utf8 (if b then "true" else "false")) ++ [62]) (utf8 "string") =
        some type ∧
      (b = true → ¬ utf8 "string=" <:+ key → type = utf8 "true") ∧ (b = false → type ≠ utf8 "true") := by
  have hq : ∀ k, (34 : UInt8) ∉ appendDsmlAttrEscaped k := fun k => (attrEscaped_plain k).1
  have hno : ¬ utf8 "string=" <:+ utf8 "<｜DSML｜parameter name=" := by decide
  have hpat : utf8 "string" ++ utf8 "=\"" = utf8 "string=" ++ [34] := by decide
  have hhead : utf8 "<｜DSML｜parameter " ++ (utf8 "name" ++ utf8 "=\"") =
      utf8 "<｜DSML｜parameter name=" ++ [34] := by decide
  -- the only quotes of the tag are those of its two attributes
  have hquote : ∀ x, utf8 "string" ++ utf8 "=\"" <:+: utf8 "<｜DSML｜parameter name=" ++ 34 :: x →
      utf8 "string=" ++ [34] <:+: x := by
    intro x h
    rw [hpat] at h
    exact (infix_quote (by decide) (by decide) h).resolve_left hno
  generalize htype : utf8 (if b then "true" else "false") = type
  have htag : paramTag key type = utf8 "<｜DSML｜parameter name=" ++ [34] ++ (appendDsmlAttrEscaped key ++
      34 :: (utf8 " " ++ (utf8 "string" ++ utf8 "=\"" ++ (type ++ [34])))) := by
    rw [paramTag, ← hhead]
    simp only [List.append_assoc]
  by_cases hkey : utf8 "string=" <:+ appendDsmlAttrEscaped key
  · obtain ⟨k, hk, he⟩ := attrEscaped_suffix (by decide) hkey
    refine ⟨utf8 " string=", ?_, fun _ h => absurd ⟨k, hk.symm⟩ h, fun _ => by decide⟩
    have h := dsmlAttr_append (utf8 "string")
      (utf8 "<｜DSML｜parameter name=" ++ 34 :: appendDsmlAttrEscaped k) (d := 115)
      (l := utf8 "tring=\"") (v := utf8 " string=")
      (by decide) (by decide) (fun h => hq k ((hquote _ h).subset (by simp))) (by decide)
      (type ++ [34] ++ [62])
    rw [show dsmlUnescapeText (utf8 " string=") = utf8 " string=" from rfl] at h
    rw [← h, htag, he, hpat, show utf8 " string=" = utf8 " " ++ utf8 "string=" by decide]
    simp only [List.append_assoc, List.cons_append, List.nil_append]
  · refine ⟨type, ?_, fun hb _ => by rw [← htype, hb]; rfl, fun hb => by rw [← htype, hb]; decide⟩
    have hshort : ¬ utf8 "string=" ++ [34] <:+: appendDsmlAttrEscaped key ++ 34 :: utf8 " " := by
      intro h
      rcases infix_quote (hq key) (by decide) h with h | h
      · exact hkey h
      · exact absurd h (by decide)
    have hplain : (34 : UInt8) ∉ type ∧ dsmlUnescapeText type = type := by
      cases b <;> rw [← htype] <;> decide
    have h := dsmlAttr_append (utf8 "string")
      (utf8 "<｜DSML｜parameter name=" ++ 34 :: (appendDsmlAttrEscaped key ++ 34 :: utf8 " ")) (d := 115)
      (l := utf8 "tring=\"")
      (by decide) (by decide) (fun h => hshort (hquote _ h)) hplain.1 [62]
    rw [hplain.2] at h
    rw [← h, htag]
    simp only [List.append_assoc, List.cons_append, List.nil_append]

/-! ## One parameter -/

/-- The member as it comes back. -/
def JsonArg.rendered (a : JsonArg) : JsonArg :=
  if a.isString then a else { a with value := appendDsmlJsonLiteral a.value }

/-- A string member the codec carries unchanged: no entity in its value, and a
    key the attribute search does not take for the `string` attribute. -/
structure Carried (a : JsonArg) : Prop where
  entity : a.isString = true → ∀ e ∈ dsmlEntities, ¬ e.1 <:+: a.value
  key : a.isString = true → ¬ utf8 "string=" <:+ a.key

theorem paramEndTag_eq : ∃ l, paramEndTag = 60 :: l ∧ (60 : UInt8) ∉ l ∧
    ∀ c ∈ 60 :: l, c ∉ ([34, 44, 58, 91, 92, 93, 123, 125] : List UInt8) :=
  ⟨_, rfl, by decide, by decide +kernel⟩

theorem JsonArg.Ok.rendered {a : JsonArg} (ha : a.Ok) : a.rendered.Ok := by
  obtain ⟨key, value, isString⟩ := a
  cases isString with
  | true => exact ha
  | false =>
    obtain ⟨l, htag, -, hl⟩ := paramEndTag_eq
    refine ⟨ha.key, fun h => (by cases h), fun _ => ?_, fun _ => ?_⟩
    · show JsonSpell .value _ (appendDsmlJsonLiteral value) (appendDsmlJsonLiteral value)
      rw [appendDsmlJsonLiteral, htag]
      exact (ha.spell rfl).escapeTag hl
    · show startsWith [34] (appendDsmlJsonLiteral value) = false
      have hquote : startsWith [34] value = false := ha.unquoted rfl
      cases value with
      | nil => rfl
      | cons c s =>
        rw [appendDsmlJsonLiteral, Bytes.escapeTag]
        split
        · rfl
        · exact hquote

/-- The value ends where it was closed: what is rendered holds no closing tag. -/
theorem strstr_paramEnd {rep : Bytes} {e : UInt8} (he : e ∉ paramEndTag) (hrep : (60 : UInt8) ∉ rep)
    (s k : Bytes) : strstr paramEndTag (Bytes.escapeTag paramEndTag (e :: rep) s ++ (paramEndTag ++ k)) =
      some (Bytes.escapeTag paramEndTag (e :: rep) s, paramEndTag ++ k) := by
  obtain ⟨l, htag, hl, -⟩ := paramEndTag_eq
  rw [htag] at he ⊢
  exact strstr_append hl k _ (escapeTag_no_tag he hrep s)

theorem toolCallJsonArgsAdd_member {a : JsonArg} (ha : a.Ok) {l : List JsonArg} {type value : Bytes}
    (htype : a.isString = true ↔ type = utf8 "true")
    (hvalue : a.isString = true → value = a.value)
    (hmin : a.isString = false → jsonMinifyRawValue value = a.value) :
    toolCallJsonArgsAdd (membersText l) a.key value type = membersText (l ++ [a]) := by
  apply toolCallJsonArgsAdd_membersText
  rw [toolCallJsonMember, memberText]
  cases hs : a.isString with
  | true =>
    rw [if_pos (htype.mp hs), hvalue hs, if_pos rfl]
  | false =>
    have ht : type ≠ utf8 "true" := fun h => by
      rw [htype.mpr h] at hs
      cases hs
    dsimp only
    rw [if_neg ht, hmin hs, if_neg (ha.spell hs).ne_nil, if_neg Bool.false_ne_true]

/-- The text between the tags of a rendered member. -/
def paramBody (a : JsonArg) : Bytes :=
  if a.isString then appendDsmlParameterText a.value else appendDsmlJsonLiteral a.value

theorem appendDsmlArg_eq (a : JsonArg) (k : Bytes) : appendDsmlArg a ++ k =
    paramTag a.key (utf8 (if a.isString then "true" else "false")) ++
      62 :: (paramBody a ++ (paramEndTag ++ 10 :: k)) := by
  have h1 : utf8 "<｜DSML｜parameter name=\"" =
      utf8 "<｜DSML｜parameter " ++ (utf8 "name" ++ utf8 "=\"") := by decide
  have h2 : utf8 "\" string=\"" = 34 :: (utf8 " " ++ (utf8 "string" ++ utf8 "=\"")) := by decide
  have h3 : utf8 "\">" = [34, 62] := by decide
  have h4 : utf8 "</｜DSML｜parameter>\n" = paramEndTag ++ [10] := by decide
  simp only [appendDsmlArg, paramTag, paramBody, h1, h2, h3, h4, List.append_assoc, List.cons_append,
    List.nil_append]

theorem paramTag_plain (key : Bytes) (b : Bool) :
    (62 : UInt8) ∉ paramTag key (utf8 (if b then "true" else "false")) := by
  have h := (attrEscaped_plain key).2
  have h1 : (62 : UInt8) ∉ utf8 "<｜DSML｜parameter " := by decide
  have h2 : (62 : UInt8) ∉ utf8 "name" ++ utf8 "=\"" := by decide
  have h3 : (62 : UInt8) ∉ utf8 " " := by decide
  have h4 : (62 : UInt8) ∉ utf8 "string" ++ utf8 "=\"" := by decide
  have h5 : (62 : UInt8) ∉ utf8 (if b then "true" else "false") := by cases b <;> decide
  rw [List.mem_append] at h2 h4
  simp [paramTag, h, h1, h2, h3, h4, h5]

/-- The round over a parameter whose `string` attribute is there. -/
theorem parseParams_leaf {syn : DsmlSyntax} {args p tag value name type raw e : Bytes} (fuel : Nat)
    (hskip : skipWs p = p) (hinvoke : startsWith syn.invokeEnd p = false)
    (hparam : startsWith syn.paramStart p = true) (hsplit : splitTag p = some (tag, value))
    (hname : dsmlAttr tag (utf8 "name") = some name) (htype : dsmlAttr tag (utf8 "string") = some type)
    (hend : strstr syn.paramEnd value = some (raw, e)) :
    parseParams syn (fuel + 1) args p =
      parseParams syn fuel (toolCallJsonArgsAdd args name (dsmlParamValue type raw) type)
        (e.drop syn.paramEnd.length) := by
  rw [parseParams]
  simp only [hskip, hinvoke, hparam, hsplit, hname, htype, hend, Option.bind_eq_bind, Option.bind_some,
    Option.isNone_some, Option.getD_some, Bool.false_and, Bool.not_true, Bool.false_eq_true, if_false]

/-- What the parser makes of the body: the rendered member again. -/
theorem paramBody_read {a : JsonArg} (ha : a.Ok) (hc : Carried a) (l : List JsonArg) {type : Bytes}
    (htype : a.isString = true ↔ type = utf8 "true") :
    toolCallJsonArgsAdd (membersText l) a.key (dsmlParamValue type (paramBody a)) type =
      membersText (l ++ [a.rendered]) := by
  have hkey : a.key = a.rendered.key := by
    unfold JsonArg.rendered
    split <;> rfl
  rw [hkey]
  obtain ⟨key, value, isString⟩ := a
  apply toolCallJsonArgsAdd_member ha.rendered
  · cases isString <;> exact htype
  · intro hs
    cases isString with
    | true =>
      rw [dsmlParamValue, if_pos (htype.mp rfl)]
      exact dsmlUnescape_parameterText (hc.entity rfl)
    | false => cases hs
  · intro hs
    cases isString with
    | true => cases hs
    | false =>
      have ht : type ≠ utf8 "true" := fun h => Bool.false_ne_true (htype.mpr h)
      rw [dsmlParamValue, if_neg ht]
      exact (ha.rendered.spell rfl).minifyRaw

/-- **One round of the parser reads one rendered member.** -/
theorem parseParams_arg {a : JsonArg} (ha : a.Ok) (hc : Carried a) (fuel : Nat) (l : List JsonArg)
    (k : Bytes) : parseParams (dsmlSyntax .dsml) (fuel + 1) (membersText l) (appendDsmlArg a ++ k) =
      parseParams (dsmlSyntax .dsml) fuel (membersText (l ++ [a.rendered])) (10 :: k) := by
  obtain ⟨type, hattr, htrue, hfalse⟩ := paramTag_string a.key a.isString
  have htype : a.isString = true ↔ type = utf8 "true" := by
    refine ⟨fun h => htrue h (hc.key h), fun h => ?_⟩
    cases hs : a.isString with
    | true => rfl
    | false => exact absurd h (hfalse hs)
  have hend : strstr (dsmlSyntax .dsml).paramEnd (paramBody a ++ (paramEndTag ++ 10 :: k)) =
      some (paramBody a, paramEndTag ++ 10 :: k) := by
    show strstr paramEndTag _ = _
    unfold paramBody
    split
    · exact strstr_paramEnd (by decide) (by decide) _ _
    · exact strstr_paramEnd (by decide) (by decide) _ _
  rw [appendDsmlArg_eq, parseParams_leaf fuel rfl rfl rfl (splitTag_append (paramTag_plain _ _) _)
    (paramTag_name _ _) hattr hend, paramBody_read ha hc l htype]
  congr 1

/-! ## One call, and the block -/

theorem parseParams_skipWs {syn : DsmlSyntax} {p p' : Bytes} (h : skipWs p = skipWs p') (fuel : Nat)
    (args : Bytes) : parseParams syn fuel args p = parseParams syn fuel args p' := by
  cases fuel with
  | zero => rfl
  | succ fuel => simp only [parseParams, h]

theorem parseParams_blank (syn : DsmlSyntax) (fuel : Nat) (args : Bytes) {c : UInt8}
    (hc : isSpace c = true) (p : Bytes) :
    parseParams syn fuel args (c :: p) = parseParams syn fuel args p :=
  parseParams_skipWs (List.dropWhile_cons_of_pos hc) fuel args

/-- The rendered members of a call are read up to its closing tag. -/
theorem parseParams_args (k : Bytes) : ∀ (args l : List JsonArg) (fuel : Nat),
    (∀ a ∈ args, a.Ok) → (∀ a ∈ args, Carried a) → args.length < fuel →
    parseParams (dsmlSyntax .dsml) fuel (membersText l)
        (args.flatMap appendDsmlArg ++ (utf8 "</｜DSML｜invoke>" ++ k)) =
      some (membersText (l ++ args.map JsonArg.rendered), k)
  | _, _, 0, _, _, h => absurd h (Nat.not_lt_zero _)
  | [], l, fuel + 1, _, _, _ => by
    rw [List.flatMap_nil, List.nil_append, List.map_nil, List.append_nil, parseParams]
    exact if_pos rfl
  | a :: args, l, fuel + 1, hok, hc, h => by
    rw [List.forall_mem_cons] at hok hc
    have ih := parseParams_args k args (l ++ [a.rendered]) fuel hok.2 hc.2 (by simpa using h)
    rw [List.flatMap_cons, List.append_assoc, parseParams_arg hok.1 hc.1,
      parseParams_blank _ _ _ (c := 10) rfl, ih, List.append_assoc]
    rfl

theorem length_flatMap_arg (args : List JsonArg) :
    args.length ≤ (args.flatMap appendDsmlArg).length := by
  induction args with
  | nil => exact Nat.le_refl _
  | cons a args ih =>
    have h : 0 < (appendDsmlArg a).length := by
      have := congrArg List.length (appendDsmlArg_eq a [])
      simp only [List.length_append, List.length_cons] at this
      simp only [List.length_nil] at this
      omega
    rw [List.flatMap_cons, List.length_append, List.length_cons]
    omega

/-- The parser sees a text between two calls only from the next tag on. -/
theorem parseInvokes_opening {syn : DsmlSyntax} {p p' : Bytes} (h : skipOpening syn p = skipOpening syn p')
    (fuel : Nat) : parseInvokes syn fuel p = parseInvokes syn fuel p' := by
  cases fuel with
  | zero => rfl
  | succ fuel => rw [parseInvokes, parseInvokes, h]

theorem parseInvokes_blank (syn : DsmlSyntax) (fuel : Nat) {c : UInt8} (hc : isSpace c = true) (p : Bytes) :
    parseInvokes syn fuel (c :: p) = parseInvokes syn fuel p := by
  apply parseInvokes_opening
  rw [skipOpening, skipOpening, show skipWs (c :: p) = skipWs p from List.dropWhile_cons_of_pos hc]

theorem skipMarkers_of_not {syn : DsmlSyntax} {p : Bytes} (h : startsWith syn.toolCallsStart p = false)
    (fuel : Nat) : skipMarkers syn fuel p = p := by
  cases fuel with
  | zero => rfl
  | succ fuel => rw [skipMarkers, h, if_neg Bool.false_ne_true]

theorem invokeTag_plain (name : Bytes) : (62 : UInt8) ∉ invokeTag name := by
  have h := (attrEscaped_plain name).2
  have h1 : (62 : UInt8) ∉ utf8 "<｜DSML｜invoke " := by decide
  have h2 : (62 : UInt8) ∉ utf8 "name" ++ utf8 "=\"" := by decide
  rw [List.mem_append] at h2
  simp [invokeTag, h, h1, h2]

/-- The round over a call whose tag names it. -/
theorem parseInvokes_call {syn : DsmlSyntax} {p tag body name args r : Bytes} (fuel : Nat)
    (hskip : skipWs p = p) (hmark : startsWith syn.toolCallsStart p = false)
    (hend : startsWith syn.toolCallsEnd p = false) (hinvoke : startsWith syn.invokeStart p = true)
    (hsplit : splitTag p = some (tag, body)) (hname : dsmlAttr tag (utf8 "name") = some name)
    (hparams : parseParams syn (body.length + 1) [] body = some (args, r)) :
    parseInvokes syn (fuel + 1) p = (parseInvokes syn fuel r).map fun v =>
      ({ name := name, arguments := 123 :: args ++ [125] } :: v.1, v.2) := by
  rw [parseInvokes]
  simp only [skipOpening, hskip, skipMarkers_of_not hmark, hend, hinvoke, hsplit, hname, hparams, Option.bind_eq_bind,
    Option.bind_some, Bool.not_true, Bool.false_eq_true, if_false]
  cases parseInvokes syn fuel r <;> rfl

/-- The call as it comes back. -/
def ToolCall.rendered (tc : ToolCall) (args : List JsonArg) : ToolCall :=
  { name := tc.name, arguments := 123 :: membersText (args.map JsonArg.rendered) ++ [125] }

/-- **One round of the parser reads one rendered call.** -/
theorem parseInvokes_toolCall {tc : ToolCall} {args : List JsonArg}
    (hargs : jsonArgsParse tc.arguments = some args) (hc : ∀ a ∈ args, Carried a) (fuel : Nat) (k : Bytes) :
    parseInvokes (dsmlSyntax .dsml) (fuel + 1) (appendDsmlToolCall tc ++ k) =
      (parseInvokes (dsmlSyntax .dsml) fuel (10 :: k)).map fun v => (tc.rendered args :: v.1, v.2) := by
  have htext : appendDsmlToolCall tc ++ k = invokeTag tc.name ++
      62 :: 10 :: (args.flatMap appendDsmlArg ++ (utf8 "</｜DSML｜invoke>" ++ 10 :: k)) := by
    have h1 : utf8 "<｜DSML｜invoke name=\"" = utf8 "<｜DSML｜invoke " ++ (utf8 "name" ++ utf8 "=\"") := by
      decide
    have h2 : utf8 "\">\n" = [34, 62, 10] := by decide
    have h3 : utf8 "</｜DSML｜invoke>\n" = utf8 "</｜DSML｜invoke>" ++ [10] := by decide
    simp only [appendDsmlToolCall, appendDsmlArgumentsFromJson, hargs, Option.map_some, Option.getD_some,
      invokeTag, h1, h2, h3, List.append_assoc, List.cons_append, List.nil_append]
  have hlen := length_flatMap_arg args
  have hparams := parseParams_args (10 :: k) args []
    ((10 :: (args.flatMap appendDsmlArg ++ (utf8 "</｜DSML｜invoke>" ++ 10 :: k))).length + 1)
    (jsonArgsParse_ok hargs) hc (by rw [List.length_cons, List.length_append]; omega)
  rw [List.nil_append] at hparams
  rw [htext, parseInvokes_call fuel rfl rfl rfl rfl (splitTag_append (invokeTag_plain _) _)
    (invokeTag_name _) (by rw [parseParams_blank _ _ _ (c := 10) rfl]; exact hparams)]
  rfl

/-- The members of a call, as the reader gives them. -/
def ToolCall.members (tc : ToolCall) : Option (List JsonArg) := jsonArgsParse tc.arguments

theorem parseInvokes_toolCalls (k : Bytes) : ∀ (calls : List ToolCall) (fuel : Nat),
    (∀ tc ∈ calls, ∃ args, tc.members = some args ∧ ∀ a ∈ args, Carried a) → calls.length < fuel →
    ∃ calls', parseInvokes (dsmlSyntax .dsml) fuel
        (calls.flatMap appendDsmlToolCall ++ (utf8 "</｜DSML｜tool_calls>" ++ k)) = some (calls', k) ∧
      calls'.map (fun tc => (tc.name, tc.members)) =
        calls.map fun tc => (tc.name, tc.members.map (·.map JsonArg.rendered))
  | _, 0, _, h => absurd h (Nat.not_lt_zero _)
  | [], fuel + 1, _, _ => by
    refine ⟨[], ?_, rfl⟩
    rw [List.flatMap_nil, List.nil_append, parseInvokes]
    exact if_pos rfl
  | tc :: calls, fuel + 1, hcalls, h => by
    rw [List.forall_mem_cons] at hcalls
    obtain ⟨⟨args, hargs, hc⟩, hrest⟩ := hcalls
    obtain ⟨calls', hparse, hmap⟩ := parseInvokes_toolCalls k calls fuel hrest (by simpa using h)
    refine ⟨tc.rendered args :: calls', ?_, ?_⟩
    · rw [List.flatMap_cons, List.append_assoc, parseInvokes_toolCall hargs hc,
        parseInvokes_blank _ _ (c := 10) rfl, hparse]
      rfl
    · have hok : ∀ a ∈ args.map JsonArg.rendered, a.Ok := by
        intro a ha
        obtain ⟨a', ha', rfl⟩ := List.mem_map.mp ha
        exact (jsonArgsParse_ok hargs a' ha').rendered
      rw [List.map_cons, List.map_cons, hmap, hargs]
      congr 2
      exact jsonArgsParse_object hok

theorem length_flatMap_toolCall (calls : List ToolCall) :
    calls.length ≤ (calls.flatMap appendDsmlToolCall).length := by
  induction calls with
  | nil => exact Nat.le_refl _
  | cons tc calls ih =>
    have h : 0 < (utf8 "</｜DSML｜invoke>\n").length := by decide
    rw [List.flatMap_cons, List.length_append, List.length_cons, appendDsmlToolCall, List.length_append]
    omega

theorem findToolStart_first {s : Bytes}
    (h : startsWith (utf8 "\n\n" ++ (dsmlSyntax .dsml).toolCallsStart) s = true) :
    findToolStart s = some (.dsml, [], s) := by
  obtain ⟨rest, hrest⟩ : ∃ rest, toolStartCandidates =
      (.dsml, utf8 "\n\n" ++ (dsmlSyntax .dsml).toolCallsStart) :: rest := ⟨_, rfl⟩
  rw [findToolStart, hrest, List.findSome?_cons, strstr_of_startsWith h]
  rfl

/-- Without a thinking gate the calls are those of the block found. -/
theorem parseGeneratedMessageEx_calls {text pre start before p r : Bytes} {style : DsmlStyle}
    {calls : List ToolCall} (hstart : findToolStart text = some (style, pre, start))
    (hmark : strstr (dsmlSyntax style).toolCallsStart start = some (before, p))
    (hcalls : parseInvokes (dsmlSyntax style) (p.length + 1)
      (p.drop (dsmlSyntax style).toolCallsStart.length) = some (calls, r)) :
    ∃ msg, parseGeneratedMessageEx text false = some msg ∧ msg.calls = calls := by
  unfold parseGeneratedMessageEx
  simp only [Bool.false_eq_true, if_false, hstart, hmark, hcalls, Option.bind_eq_bind, Option.bind_some]
  exact ⟨_, rfl, rfl⟩

/-- **The DSML codec.** Rendered calls are parsed back in order, under their
    names and with their members: strings byte for byte, other values as the
    literals the renderer wrote. -/
theorem dsml_roundTrip (calls : List ToolCall) (hne : calls ≠ [])
    (hcalls : ∀ tc ∈ calls, ∃ args, tc.members = some args ∧ ∀ a ∈ args, Carried a) :
    ∃ msg, parseGeneratedMessageEx (appendDsmlToolCallsText [] calls) false = some msg ∧
      msg.calls.map (fun tc => (tc.name, tc.members)) =
        calls.map fun tc => (tc.name, tc.members.map (·.map JsonArg.rendered)) := by
  have htext : appendDsmlToolCallsText [] calls = utf8 "\n\n" ++ ((dsmlSyntax .dsml).toolCallsStart ++
      10 :: (calls.flatMap appendDsmlToolCall ++ (utf8 "</｜DSML｜tool_calls>" ++ []))) := by
    have hlit : utf8 "\n\n<｜DSML｜tool_calls>\n" =
        utf8 "\n\n" ++ ((dsmlSyntax .dsml).toolCallsStart ++ [10]) := by decide
    rw [appendDsmlToolCallsText, if_neg hne, if_neg (by simp), hlit]
    simp only [List.append_assoc, List.cons_append, List.nil_append, List.append_nil]
  generalize hbody : calls.flatMap appendDsmlToolCall ++ (utf8 "</｜DSML｜tool_calls>" ++ []) = body at htext
  have hstart : findToolStart (appendDsmlToolCallsText [] calls) =
      some (.dsml, [], appendDsmlToolCallsText [] calls) := by
    apply findToolStart_first
    rw [htext, ← List.append_assoc]
    exact startsWith_append _ _
  have hmark : strstr (dsmlSyntax .dsml).toolCallsStart (appendDsmlToolCallsText [] calls) =
      some (utf8 "\n\n", (dsmlSyntax .dsml).toolCallsStart ++ 10 :: body) := by
    rw [htext]
    exact strstr_append (by decide) _ _ (by decide)
  have hlen := length_flatMap_toolCall calls
  obtain ⟨calls', hparse, hmap⟩ := parseInvokes_toolCalls [] calls
    (((dsmlSyntax .dsml).toolCallsStart ++ 10 :: body).length + 1) hcalls (by
      rw [← hbody, List.length_append, List.length_cons, List.length_append]
      omega)
  rw [hbody] at hparse
  have hinvokes : parseInvokes (dsmlSyntax .dsml) (((dsmlSyntax .dsml).toolCallsStart ++ 10 :: body).length + 1)
      (((dsmlSyntax .dsml).toolCallsStart ++ 10 :: body).drop (dsmlSyntax .dsml).toolCallsStart.length) =
      some (calls', []) := by
    rw [List.drop_left, parseInvokes_blank _ _ (c := 10) rfl]
    exact hparse
  obtain ⟨msg, hmsg, rfl⟩ := parseGeneratedMessageEx_calls hstart hmark hinvokes
  exact ⟨msg, hmsg, hmap⟩

/-- A list of values and a text that looks like a closing tag are carried. -/
def editCall : ToolCall :=
  { name := utf8 "edit", arguments := utf8 "\x7b\"path\": \"a</｜DSML｜parameter>&\", \"lines\": [1, 2]\x7d" }

theorem dsml_roundTrip_edit :
    ∃ msg, parseGeneratedMessageEx (appendDsmlToolCallsText [] [editCall]) false = some msg ∧
      msg.calls.map (fun tc => (tc.name, tc.members)) =
        [editCall].map fun tc => (tc.name, tc.members.map (·.map JsonArg.rendered)) := by
  refine dsml_roundTrip [editCall] (by decide) ?_
  rw [List.forall_mem_singleton]
  refine ⟨[⟨utf8 "path", utf8 "a</｜DSML｜parameter>&", true⟩, ⟨utf8 "lines", utf8 "[1,2]", false⟩], ?_, ?_⟩
  · decide +kernel
  · intro a ha
    rcases List.mem_cons.mp ha with rfl | ha
    · exact ⟨fun _ => by decide +kernel, fun _ => by decide +kernel⟩
    · obtain rfl := List.mem_singleton.mp ha
      exact ⟨fun h => (by cases h), fun h => (by cases h)⟩

/-- A list that holds the closing tag as a text: it comes back spelled `\u003c`. -/
def tagCall : ToolCall :=
  { name := utf8 "edit", arguments := utf8 "\x7b\"lines\": [\"</｜DSML｜parameter>\"]\x7d" }

theorem tagCall_literal_differs :
    ¬ ∃ msg, parseGeneratedMessageEx (appendDsmlToolCallsText [] [tagCall]) false = some msg ∧
      msg.calls.map (fun tc => (tc.name, tc.members)) =
        [tagCall].map fun tc => (tc.name, tc.members) := by
  have h : ((parseGeneratedMessageEx (appendDsmlToolCallsText [] [tagCall]) false).map fun msg =>
      msg.calls.map fun tc => (tc.name, tc.members)) ≠
        some ([tagCall].map fun tc => (tc.name, tc.members)) := by
    decide +kernel
  rintro ⟨msg, hmsg, hcalls⟩
  apply h
  rw [hmsg, Option.map_some, hcalls]

end Ds4.Server
