import Ds4.Server.RepairCuts

/- A rendered block cut short, repaired and parsed again.

   PROVED here: behind the opening tag and outside the tags the repair completes the
   text with the closing tags it misses, and the parser reads the first calls again, the
   one the cut is in with its first parameters, where no `</think>` stands in the text,
   what is left of each value reads as the value or the beginning of it, and no name of a
   string parameter ends like an attribute (`truncated_repair`). -/
namespace Ds4.Server
open Bytes

/-! ## What has to come back -/

/-- The first parameters, the last string of them possibly cut short. -/
def FirstParams (params got : List JsonArg) : Prop :=
  (∃ rest, params = got ++ rest) ∨
    ∃ args a rest v, params = args ++ a :: rest ∧ a.isString = true ∧ v <+: a.value ∧
      got = args ++ [{ a with value := v }]

/-- The first calls unchanged, and possibly the next one with its first parameters. -/
def FirstCalls (calls got : List ToolCall) : Prop :=
  ∃ done rest, calls = done ++ rest ∧
    (got.map (fun tc => (tc.name, tc.members)) = done.map (fun tc => (tc.name, tc.members)) ∨
      ∃ c rest' params, rest = c :: rest' ∧ FirstParams (callArgs c) params ∧
        got.map (fun tc => (tc.name, tc.members)) =
          done.map (fun tc => (tc.name, tc.members)) ++ [(c.name, some params)])

/-- The repair succeeds, appends closing tags only, and the parser reads the first calls. -/
def Repaired (calls : List ToolCall) (t : Bytes) : Prop :=
  ∃ closing : List Bytes, (∀ x ∈ closing, x ∈ [dsmlSyn.paramEnd, dsmlSyn.invokeEnd, dsmlSyn.toolCallsEnd]) ∧
    tryRepairDsml t = some (t ++ closing.flatten) ∧
    ∃ msg, parseGeneratedMessageEx (t ++ closing.flatten) false = some msg ∧ FirstCalls calls msg.calls

/-! ## Where it does -/

/-- What is left of a value reads as the value, of a string as the beginning of it. -/
def ValueReads (a : JsonArg) (p : Bytes) : Prop :=
  if a.isString then ¬ utf8 "string=" <:+ a.key ∧ dsmlUnescapeText p <+: a.value
  else (if jsonMinifyRawValue p = [] then utf8 "null" else jsonMinifyRawValue p) = a.value

structure CutCall.Fine (x : CutCall) : Prop where
  args : ∀ a ∈ x.args, Carried a
  value : ∀ a p, x.value = some (a, p) → ValueReads a p

structure CutFine (done : List ToolCall) (part : Option CutCall) (t : Bytes) : Prop where
  thinking : ¬ utf8 "</think>" <:+: t
  done : ∀ c ∈ done, (∃ args, jsonArgsParse c.arguments = some args) ∧ ∀ a ∈ callArgs c, Carried a
  part : ∀ x, part = some x → x.Fine

/-! ## Reading -/

theorem escapeTag_of_free {tag rep s : Bytes} (h : ¬ tag <:+: s) : escapeTag tag rep s = s := by
  induction s with
  | nil => rfl
  | cons c s ih =>
    have hno : startsWith tag (c :: s) = false := by
      rw [Bool.eq_false_iff]
      intro hs
      obtain ⟨r, hr⟩ := startsWith_iff.mp hs
      exact h ⟨[], r, hr.symm⟩
    rw [escapeTag, hno, if_neg Bool.false_ne_true, ih fun hs => h (List.infix_cons hs)]
    rfl

theorem paramBody_free {a : JsonArg} (h : TagFree a.value) : paramBody a = a.value := by
  have htag : ¬ paramEndTag <:+: a.value := h .paramEnd
  unfold paramBody appendDsmlParameterText appendDsmlJsonLiteral
  split
  next => exact escapeTag_of_free htag
  next => exact escapeTag_of_free htag

theorem rendered_free {a : JsonArg} (h : TagFree a.value) : a.rendered = a := by
  have hliteral : appendDsmlJsonLiteral a.value = a.value := escapeTag_of_free (h .paramEnd)
  unfold JsonArg.rendered
  split
  next => rfl
  next => rw [hliteral]

theorem callArgs_ok {c : ToolCall} (h : (0 : UInt8) ∉ c.arguments) : ∀ a ∈ callArgs c, a.Ok := by
  unfold callArgs
  cases hparse : jsonArgsParse c.arguments with
  | some args => exact jsonArgsParse_ok hparse
  | none =>
    intro a ha
    rw [List.mem_singleton.mp ha]
    have hkey : (0 : UInt8) ∉ utf8 "arguments" := by decide
    exact ⟨hkey, fun _ => h, fun h => (by cases h), fun h => (by cases h)⟩

/-- The round over a parameter, closed where it was cut or where it ended. -/
theorem parseParams_body (a m : JsonArg) (body : Bytes) (l : List JsonArg) (hfree : ¬ paramEndTag <:+: body)
    (hkey : a.isString = true → ¬ utf8 "string=" <:+ a.key)
    (hread : ∀ type, (a.isString = true ↔ type = utf8 "true") →
      toolCallJsonArgsAdd (membersText l) a.key (dsmlParamValue type body) type = membersText (l ++ [m]))
    (fuel : Nat) (k : Bytes) :
    parseParams dsmlSyn (fuel + 1) (membersText l) (argText a body ++ (dsmlSyn.tag .paramEnd ++ k)) =
      parseParams dsmlSyn fuel (membersText (l ++ [m])) k := by
  obtain ⟨type, hattr, htrue, hfalse⟩ := paramTag_string a.key a.isString
  have htype : a.isString = true ↔ type = utf8 "true" := by
    refine ⟨fun h => htrue h (hkey h), fun h => ?_⟩
    cases hs : a.isString with
    | true => rfl
    | false => exact absurd h (hfalse hs)
  obtain ⟨e, htag, he, -⟩ := paramEndTag_eq
  have hend : strstr dsmlSyn.paramEnd (body ++ (dsmlSyn.tag .paramEnd ++ k)) = some (body, dsmlSyn.tag .paramEnd ++ k) := by
    show strstr paramEndTag (body ++ (paramEndTag ++ k)) = some (body, paramEndTag ++ k)
    rw [htag] at hfree ⊢
    exact strstr_append he k body hfree
  have htext : argText a body ++ (dsmlSyn.tag .paramEnd ++ k) =
      paramTag a.key (typeText a) ++ 62 :: (body ++ (dsmlSyn.tag .paramEnd ++ k)) := by
    simp only [argText, List.append_assoc, List.cons_append]
  rw [htext, typeText, parseParams_leaf fuel rfl rfl rfl (splitTag_append (paramTag_plain _ _) _)
    (paramTag_name _ _) hattr hend, hread type htype]
  congr 1

theorem ParamsText.length {args : List JsonArg} {s : Bytes} (h : ParamsText args s) : args.length ≤ s.length := by
  induction h with
  | nil => exact Nat.zero_le _
  | cons _ _ ih =>
    simp only [argText, List.length_append, List.length_cons] at ih ⊢
    omega

theorem parseParams_blanks {w : Bytes} (hw : Blank w) (fuel : Nat) (args k : Bytes) :
    parseParams dsmlSyn fuel args (w ++ k) = parseParams dsmlSyn fuel args k :=
  parseParams_skipWs (skipWs_append hw k) fuel args

/-- Whole parameters are read again. -/
theorem ParamsText.parse {args : List JsonArg} {s : Bytes} (h : ParamsText args s) (hok : ∀ a ∈ args, a.Ok)
    (hc : ∀ a ∈ args, Carried a) (hfree : ∀ a ∈ args, TagFree a.value) (k : Bytes) (l : List JsonArg) (fuel : Nat) :
    parseParams dsmlSyn (args.length + fuel) (membersText l) (s ++ k) =
      parseParams dsmlSyn fuel (membersText (l ++ args)) k := by
  induction h generalizing l with
  | nil hw => rw [parseParams_blanks hw, List.length_nil, Nat.zero_add, List.append_nil]
  | @cons w s a as hw _ ih =>
    rw [List.forall_mem_cons] at hok hc hfree
    have hbody := paramBody_free hfree.1
    have hread : ∀ type, (a.isString = true ↔ type = utf8 "true") →
        toolCallJsonArgsAdd (membersText l) a.key (dsmlParamValue type (paramBody a)) type = membersText (l ++ [a]) := by
      intro type htype
      rw [paramBody_read hok.1 hc.1 l htype, rendered_free hfree.1]
    have hround := parseParams_body a a (paramBody a) l (by rw [hbody]; exact hfree.1 .paramEnd) hc.1.key
      hread (as.length + fuel) (s ++ k)
    have hlen : (a :: as).length + fuel = as.length + fuel + 1 := by
      rw [List.length_cons]
      omega
    simp only [List.append_assoc] at hround ⊢
    rw [parseParams_blanks hw, hlen, hround, ih hok.2 hc.2 hfree.2, List.append_assoc]
    rfl

theorem parseParams_end (fuel : Nat) (args k : Bytes) :
    parseParams dsmlSyn (fuel + 1) args (dsmlSyn.tag .invokeEnd ++ k) = some (args, k) := by
  rw [parseParams]
  exact if_pos rfl

/-- A call as it comes back. -/
def readBack (c : ToolCall) (args : List JsonArg) : ToolCall :=
  { name := c.name, arguments := 123 :: membersText args ++ [125] }

theorem readBack_members {c : ToolCall} {args : List JsonArg} (h : ∀ a ∈ args, a.Ok) :
    (readBack c args).members = some args := jsonArgsParse_object h

theorem parseInvokes_tag {c : ToolCall} {body r : Bytes} {args : List JsonArg} (fuel : Nat)
    (hparams : parseParams dsmlSyn (body.length + 1) (membersText []) body = some (membersText args, r)) :
    parseInvokes dsmlSyn (fuel + 1) (invokeTag c.name ++ 62 :: body) =
      (parseInvokes dsmlSyn fuel r).map fun v => (readBack c args :: v.1, v.2) :=
  parseInvokes_call fuel rfl rfl rfl rfl (splitTag_append (invokeTag_plain _) _) (invokeTag_name _) hparams

theorem parseInvokes_blanks {w : Bytes} (hw : Blank w) (fuel : Nat) (k : Bytes) :
    parseInvokes dsmlSyn fuel (w ++ k) = parseInvokes dsmlSyn fuel k := by
  apply parseInvokes_opening
  rw [skipOpening, skipOpening, skipWs_append hw]

theorem parseInvokes_end (fuel : Nat) : parseInvokes dsmlSyn (fuel + 1) (dsmlSyn.tag .toolCallsEnd) = some ([], []) := by
  rw [parseInvokes]
  exact if_pos rfl

/-- Whole calls are read again. -/
theorem CallsText.parse {cs : List ToolCall} {s : Bytes} (h : CallsText cs s)
    (hok : ∀ c ∈ cs, ∀ a ∈ callArgs c, a.Ok) (hc : ∀ c ∈ cs, ∀ a ∈ callArgs c, Carried a)
    (hfree : ∀ c ∈ cs, ∀ a ∈ callArgs c, TagFree a.value) (k : Bytes) (fuel : Nat) :
    parseInvokes dsmlSyn (cs.length + fuel) (s ++ k) =
      (parseInvokes dsmlSyn fuel k).map fun v => (cs.map (fun c => readBack c (callArgs c)) ++ v.1, v.2) := by
  induction h with
  | nil hw =>
    rw [parseInvokes_blanks hw, List.length_nil, Nat.zero_add]
    cases parseInvokes dsmlSyn fuel k <;> rfl
  | @cons w s r c cs hw hs _ ih =>
    rw [List.forall_mem_cons] at hok hc hfree
    have hlen := hs.length
    have hparams : parseParams dsmlSyn ((s ++ (dsmlSyn.tag .invokeEnd ++ (r ++ k))).length + 1) (membersText [])
        (s ++ (dsmlSyn.tag .invokeEnd ++ (r ++ k))) = some (membersText (callArgs c), r ++ k) := by
      obtain ⟨n, hn⟩ : ∃ n, (s ++ (dsmlSyn.tag .invokeEnd ++ (r ++ k))).length + 1 = (callArgs c).length + (n + 1) :=
        ⟨(s ++ (dsmlSyn.tag .invokeEnd ++ (r ++ k))).length - (callArgs c).length, by
          rw [List.length_append]
          omega⟩
      rw [hn, hs.parse hok.1 hc.1 hfree.1, parseParams_end, List.nil_append]
    have hround := parseInvokes_tag (c := c) (cs.length + fuel) hparams
    have hcount : (c :: cs).length + fuel = cs.length + fuel + 1 := by
      rw [List.length_cons]
      omega
    simp only [List.append_assoc, List.cons_append] at hround ⊢
    rw [parseInvokes_blanks hw, hcount, hround, ih hok.2 hc.2 hfree.2]
    cases parseInvokes dsmlSyn fuel k <;> rfl

/-! ### The call the cut is in -/

/-- A member as it comes back from what is left of its value. -/
def JsonArg.cutTo (a : JsonArg) (p : Bytes) : JsonArg :=
  if a.isString then { a with value := dsmlUnescapeText p } else a

def CutCall.read (x : CutCall) : List JsonArg :=
  x.args ++ match x.value with
    | none => []
    | some (a, p) => [a.cutTo p]

/-- The closing tags the call misses. -/
def CutCall.closing (x : CutCall) : List Bytes :=
  List.replicate (if x.value.isSome then 1 else 0) dsmlSyn.paramEnd ++ [dsmlSyn.invokeEnd]

theorem cutTo_ok {a : JsonArg} (ha : a.Ok) {p : Bytes} (hp : p <+: a.value) : (a.cutTo p).Ok := by
  unfold JsonArg.cutTo
  split
  next hs =>
    have hnul : (0 : UInt8) ∉ p := fun h => ha.string hs (hp.subset h)
    exact ⟨ha.key, fun _ => dsmlUnescapeFrom_no_nul 0 hnul, fun h => (by rw [hs] at h; cases h),
      fun h => (by rw [hs] at h; cases h)⟩
  next => exact ha

theorem cutTo_key (a : JsonArg) (p : Bytes) : (a.cutTo p).key = a.key := by
  unfold JsonArg.cutTo
  split <;> rfl

/-- What the parser makes of what is left of a value. -/
theorem cutTo_read {a : JsonArg} {p : Bytes} (hreads : ValueReads a p) (l : List JsonArg) (type : Bytes)
    (htype : a.isString = true ↔ type = utf8 "true") :
    toolCallJsonArgsAdd (membersText l) a.key (dsmlParamValue type p) type = membersText (l ++ [a.cutTo p]) := by
  rw [← cutTo_key a p]
  apply toolCallJsonArgsAdd_membersText
  rw [toolCallJsonMember, memberText]
  unfold ValueReads at hreads
  unfold JsonArg.cutTo
  cases hs : a.isString with
  | true =>
    have ht := htype.mp hs
    rw [if_pos ht, dsmlParamValue, if_pos ht]
    rfl
  | false =>
    have ht : type ≠ utf8 "true" := fun h => by
      rw [htype.mpr h] at hs
      cases hs
    rw [hs, if_neg Bool.false_ne_true] at hreads
    rw [if_neg ht, dsmlParamValue, if_neg ht, if_neg Bool.false_ne_true, hs, if_neg Bool.false_ne_true]
    simp only [hreads]

/-- The call the cut is in, closed, is read with what is left of it. -/
theorem CallCut.parse {x : CutCall} {v : Bytes} (h : CallCut x v) (hx : x.Fine)
    (hok : ∀ a ∈ callArgs x.call, a.Ok) (hfree : ∀ a ∈ callArgs x.call, TagFree a.value) (fuel : Nat) :
    parseInvokes dsmlSyn (fuel + 2) (v ++ (x.closing.flatten ++ dsmlSyn.tag .toolCallsEnd)) =
      some ([readBack x.call x.read], []) := by
  have hround : ∀ (args : List JsonArg) (body : Bytes), args.length + 1 < body.length + 1 →
      (∀ n, parseParams dsmlSyn (args.length + n + 1) (membersText []) body =
        some (membersText args, dsmlSyn.tag .toolCallsEnd)) →
      parseInvokes dsmlSyn (fuel + 2) (invokeTag x.call.name ++ 62 :: body) = some ([readBack x.call args], []) := by
    intro args body hlen hparams
    have hp := hparams (body.length - args.length)
    have hfuel : args.length + (body.length - args.length) + 1 = body.length + 1 := by omega
    rw [hfuel] at hp
    rw [parseInvokes_tag (fuel + 1) hp, parseInvokes_end]
    rfl
  have hpos : 0 < (dsmlSyn.tag .invokeEnd).length := by decide
  cases h with
  | @params c args r w hargs hw =>
    have hmem : ∀ a ∈ args, a ∈ callArgs c := fun a ha => hargs ▸ List.mem_append_left r ha
    have hlen := hw.length
    have hbody := hround args (w ++ (dsmlSyn.tag .invokeEnd ++ dsmlSyn.tag .toolCallsEnd))
      (by simp only [List.length_append]; omega) fun n => by
        rw [Nat.add_assoc, hw.parse (fun a ha => hok a (hmem a ha)) hx.args (fun a ha => hfree a (hmem a ha)),
          parseParams_end, List.nil_append]
    have hread : CutCall.read ⟨c, args, none⟩ = args := List.append_nil args
    rw [hread, ← hbody]
    simp [CutCall.closing, DsmlSyntax.tag]
  | @value c args r a w p hargs hw hp =>
    have hmem : ∀ b ∈ args, b ∈ callArgs c := fun b hb => hargs ▸ List.mem_append_left _ hb
    have ha : a ∈ callArgs c := hargs ▸ List.mem_append_right args List.mem_cons_self
    have hbodyFree := paramBody_free (hfree a ha)
    have hpfree : ¬ paramEndTag <:+: p := fun h => hfree a ha .paramEnd ((hbodyFree ▸ h.trans hp.isInfix))
    have hreads := hx.value a p rfl
    have hkey : a.isString = true → ¬ utf8 "string=" <:+ a.key := by
      intro hs
      unfold ValueReads at hreads
      rw [if_pos hs] at hreads
      exact hreads.1
    have hlen := hw.length
    have hparam := fun (l : List JsonArg) (n : Nat) (k : Bytes) =>
      parseParams_body a (a.cutTo p) p l hpfree hkey (cutTo_read hreads l) n k
    have hbody := hround (args ++ [a.cutTo p])
      (w ++ (argText a p ++ (dsmlSyn.tag .paramEnd ++ (dsmlSyn.tag .invokeEnd ++ dsmlSyn.tag .toolCallsEnd))))
      (by simp only [argText, List.length_append, List.length_cons, List.length_nil]; omega) fun n => by
        have hfuel : (args ++ [a.cutTo p]).length + n + 1 = args.length + (n + 1 + 1) := by
          rw [List.length_append, List.length_singleton]
          omega
        rw [hfuel, hw.parse (fun b hb => hok b (hmem b hb)) hx.args (fun b hb => hfree b (hmem b hb)), List.nil_append,
          hparam, parseParams_end]
    have hread : CutCall.read ⟨c, args, some (a, p)⟩ = args ++ [a.cutTo p] := rfl
    rw [hread, ← hbody]
    simp [CutCall.closing, DsmlSyntax.tag]

/-! ## The tags in the text -/

/-- So many more opening than closing tags, of parameters, of calls and of the block. -/
structure Nest (found : List DsmlTag) (params calls blocks : Nat) : Prop where
  params : found.count .paramStart = found.count .paramEnd + params
  calls : found.count .invokeStart = found.count .invokeEnd + calls
  blocks : found.count .toolCallsStart = found.count .toolCallsEnd + blocks

theorem nest_nil : Nest [] 0 0 0 := ⟨rfl, rfl, rfl⟩

theorem Nest.append {f g : List DsmlTag} {p i b p' i' b' : Nat} (h : Nest f p i b) (h' : Nest g p' i' b') :
    Nest (f ++ g) (p + p') (i + i') (b + b') := by
  obtain ⟨h1, h2, h3⟩ := h
  obtain ⟨h1', h2', h3'⟩ := h'
  constructor
  · rw [List.count_append, List.count_append]
    omega
  · rw [List.count_append, List.count_append]
    omega
  · rw [List.count_append, List.count_append]
    omega

def argTags (args : List JsonArg) : List DsmlTag := args.flatMap fun _ => [.paramStart, .paramEnd]

def callTags (cs : List ToolCall) : List DsmlTag :=
  cs.flatMap fun c => .invokeStart :: (argTags (callArgs c) ++ [.invokeEnd])

theorem nest_args (args : List JsonArg) : Nest (argTags args) 0 0 0 := by
  induction args with
  | nil => exact nest_nil
  | cons a args ih => exact Nest.append (f := [.paramStart, .paramEnd]) (p := 0) (i := 0) (b := 0) ⟨rfl, rfl, rfl⟩ ih

theorem nest_calls (cs : List ToolCall) : Nest (callTags cs) 0 0 0 := by
  induction cs with
  | nil => exact nest_nil
  | cons c cs ih =>
    have hcount : Nest (.invokeStart :: (argTags (callArgs c) ++ [.invokeEnd])) 0 0 0 := by
      obtain ⟨h1, h2, h3⟩ := nest_args (callArgs c)
      constructor
      · simpa [List.count_cons] using h1
      · simpa [List.count_cons] using h2
      · simpa [List.count_cons] using h3
    exact hcount.append ih

theorem attrByte_angle : ∀ c : UInt8, (60 : UInt8) ∉ dsmlAttrByte c := by
  apply forall_byte
  decide +kernel

theorem attrEscaped_angle (s : Bytes) : (60 : UInt8) ∉ appendDsmlAttrEscaped s := by
  intro h
  obtain ⟨c, -, hc⟩ := List.mem_flatMap.mp h
  exact attrByte_angle c hc

theorem nameAttr_angle (name : Bytes) : (60 : UInt8) ∉ nameAttr name := by
  have h := attrEscaped_angle name
  have h1 : (60 : UInt8) ∉ utf8 "name" ++ utf8 "=\"" := by decide
  rw [List.mem_append] at h1
  simp [nameAttr, h, h1]

theorem stringAttr_angle (a : JsonArg) : (60 : UInt8) ∉ stringAttr a := by
  have h1 : (60 : UInt8) ∉ utf8 "string" ++ utf8 "=\"" := by decide
  have h2 : (60 : UInt8) ∉ typeText a := by
    unfold typeText
    cases a.isString <;> decide
  rw [List.mem_append] at h1
  simp [stringAttr, h1, h2]

theorem blank_angle {w : Bytes} (hw : Blank w) : (60 : UInt8) ∉ w := fun h => by cases hw 60 h

theorem found_paramTag (a : JsonArg) (k : Bytes) :
    tagsFound dsmlSyn 0 (argText a [] ++ k) = .paramStart :: tagsFound dsmlSyn 0 k := by
  have hattrs : (60 : UInt8) ∉ nameAttr a.key ++ stringAttr a ++ [62] := by
    simp [nameAttr_angle, stringAttr_angle]
  rw [← paramTag_text, Piece.bytes, List.append_assoc, found_tag, found_no_angle hattrs]

theorem found_invokeTag (name k : Bytes) :
    tagsFound dsmlSyn 0 (invokeTag name ++ 62 :: k) = .invokeStart :: tagsFound dsmlSyn 0 k := by
  have hattrs : (60 : UInt8) ∉ nameAttr name ++ [62] := by simp [nameAttr_angle]
  have htext : invokeTag name ++ 62 :: k = (Piece.tag .invokeStart (nameAttr name ++ [62])).bytes ++ k := by
    rw [invokeTag_text, List.append_assoc]
    rfl
  rw [htext, Piece.bytes, List.append_assoc, found_tag, found_no_angle hattrs]

theorem tag_head (t : DsmlTag) (k : Bytes) : ∀ c, (dsmlSyn.tag t ++ k).head? = some c → c = 60 := by
  obtain ⟨l, hl, -⟩ := dsmlTag_shape t
  intro c hc
  rw [hl] at hc
  exact (Option.some.inj hc).symm

theorem ParamsText.found {args : List JsonArg} {s : Bytes} (h : ParamsText args s)
    (hfree : ∀ a ∈ args, TagFree a.value) (k : Bytes) :
    tagsFound dsmlSyn 0 (s ++ k) = argTags args ++ tagsFound dsmlSyn 0 k := by
  induction h with
  | nil hw => exact found_no_angle (blank_angle hw) k
  | @cons w s a as hw _ ih =>
    rw [List.forall_mem_cons] at hfree
    have hbody : TagFree (paramBody a) := by
      rw [paramBody_free hfree.1]
      exact hfree.1
    simp only [List.append_assoc]
    rw [found_no_angle (blank_angle hw), argText_append, found_paramTag, found_text hbody (tag_head _ _), found_tag,
      ih hfree.2]
    rfl

theorem CallsText.found {cs : List ToolCall} {s : Bytes} (h : CallsText cs s)
    (hfree : ∀ c ∈ cs, ∀ a ∈ callArgs c, TagFree a.value) (k : Bytes) :
    tagsFound dsmlSyn 0 (s ++ k) = callTags cs ++ tagsFound dsmlSyn 0 k := by
  induction h with
  | nil hw => exact found_no_angle (blank_angle hw) k
  | @cons w s r c cs hw hs _ ih =>
    rw [List.forall_mem_cons] at hfree
    simp only [List.append_assoc, List.cons_append]
    rw [found_no_angle (blank_angle hw), found_invokeTag, hs.found hfree.1, found_tag, ih hfree.2]
    simp only [callTags, List.flatMap_cons, List.cons_append, List.append_assoc, List.nil_append]

/-- How many closing tags of parameters the call misses. -/
def CutCall.pending (x : CutCall) : Nat := if x.value.isSome then 1 else 0

theorem CallCut.found {x : CutCall} {v : Bytes} (h : CallCut x v) (hfree : ∀ a ∈ callArgs x.call, TagFree a.value) :
    Nest (tagsFound dsmlSyn 0 v) x.pending 1 0 := by
  have hopen : Nest [.invokeStart] 0 1 0 := ⟨rfl, rfl, rfl⟩
  cases h with
  | @params c args r w hargs hw =>
    have hfound := hw.found (fun a ha => hfree a (hargs ▸ List.mem_append_left r ha)) []
    rw [List.append_nil, tagsFound, List.append_nil] at hfound
    rw [found_invokeTag, hfound]
    exact hopen.append (nest_args args)
  | @value c args r a w p hargs hw hp =>
    have ha : a ∈ callArgs c := hargs ▸ List.mem_append_right args List.mem_cons_self
    have hpfree : TagFree p := fun t ht =>
      hfree a ha t (paramBody_free (hfree a ha) ▸ ht.trans hp.isInfix)
    have hparam : Nest [.paramStart] 1 0 0 := ⟨rfl, rfl, rfl⟩
    have hfound := hw.found (fun b hb => hfree b (hargs ▸ List.mem_append_left _ hb)) (argText a p)
    have hvalue := argText_append a p []
    have hend := found_text hpfree (p := []) fun c hc => by cases hc
    rw [List.append_nil] at hvalue hend
    rw [hvalue, List.append_nil, found_paramTag, hend, tagsFound] at hfound
    rw [found_invokeTag, hvalue, List.append_nil, hfound]
    exact (hopen.append (nest_args args)).append hparam

/-! ## Repaired -/

theorem findLastSubstr_none {needle : Bytes} {s : Bytes} (h : ¬ needle <:+: s) : findLastSubstr needle s = none := by
  cases hfind : findLastSubstr needle s with
  | none => rfl
  | some r =>
    obtain ⟨hsuffix, hstart⟩ := findLastSubstr_suffix hfind
    obtain ⟨k, hk⟩ := startsWith_iff.mp hstart
    exact absurd ((show needle <+: r from ⟨k, hk.symm⟩).isInfix.trans hsuffix.isInfix) h

/-- The repair of a text that begins with a block, from the tags in it. -/
theorem tryRepairDsml_block {u : Bytes} {p i b : Nat} (hnul : (0 : UInt8) ∉ blockOpening ++ u)
    (hthink : ¬ utf8 "</think>" <:+: blockOpening ++ u) (hnest : Nest (tagsFound dsmlSyn 0 u) p i b) :
    tryRepairDsml (blockOpening ++ u) = some (blockOpening ++ u ++ (List.replicate p dsmlSyn.paramEnd ++
      (List.replicate i dsmlSyn.invokeEnd ++ List.replicate (b + 1) dsmlSyn.toolCallsEnd)).flatten) := by
  have hscan : repairScan (blockOpening ++ u) = blockOpening ++ u := by
    rw [repairScan, cstr_of_no_nul hnul, findLastSubstr_none hthink]
  have hstyle : repairStyle (blockOpening ++ u) = some .dsml := by
    have hin : dsmlSyn.toolCallsStart <:+: blockOpening ++ u := ⟨utf8 "\n\n", u, rfl⟩
    have hsome := Option.isSome_iff_ne_none.mpr ( strstr_of_infix hin)
    rw [repairStyle, cstr_of_no_nul hnul, List.find?_cons, hsome]
  have hfound : tagsFound dsmlSyn 0 (blockOpening ++ u) = .toolCallsStart :: tagsFound dsmlSyn 0 u := by
    have hlines : (60 : UInt8) ∉ utf8 "\n\n" := by decide
    rw [blockOpening, List.append_assoc, found_no_angle hlines]
    exact found_tag .toolCallsStart u
  have hblock : Nest [.toolCallsStart] 0 0 1 := ⟨rfl, rfl, rfl⟩
  obtain ⟨h1, h2, h3⟩ := hblock.append hnest
  rw [List.singleton_append, ← hfound] at h1 h2 h3
  have hopen : blockOpening ≠ [] := by decide
  have hne : blockOpening ++ u ≠ [] := List.append_ne_nil_of_left_ne_nil hopen u
  have hbalanced : ¬ Balanced (tagsFound dsmlSyn 0 (blockOpening ++ u)) := by
    rintro ⟨h, -, -⟩
    omega
  have hextra : ¬ ExtraClosers (tagsFound dsmlSyn 0 (blockOpening ++ u)) := by
    rintro (h | h | h) <;> omega
  have hclosers : missingClosers dsmlSyn (tagsFound dsmlSyn 0 (blockOpening ++ u)) = List.replicate p dsmlSyn.paramEnd ++
      (List.replicate i dsmlSyn.invokeEnd ++ List.replicate (b + 1) dsmlSyn.toolCallsEnd) := by
    unfold missingClosers unclosed
    rw [h1, h2, h3, Nat.add_sub_cancel_left, Nat.add_sub_cancel_left, Nat.add_sub_cancel_left, Nat.zero_add,
      Nat.zero_add, Nat.add_comm 1 b]
  unfold tryRepairDsml
  rw [if_neg hne, hscan, hstyle]
  simp only [Option.bind_eq_bind, Option.bind_some]
  rw [if_neg hbalanced, if_neg hextra, hclosers, cstr_of_no_nul hnul]

/-- A text that begins with a block is parsed as its calls. -/
theorem parse_opened (u : Bytes) (calls : List ToolCall)
    (h : ∀ n, parseInvokes dsmlSyn (u.length + n + 1) u = some (calls, [])) :
    ∃ msg, parseGeneratedMessageEx (blockOpening ++ u) false = some msg ∧ msg.calls = calls := by
  have hstart : findToolStart (blockOpening ++ u) = some (.dsml, [], blockOpening ++ u) :=
    findToolStart_first (startsWith_append _ _)
  have hmark : strstr dsmlSyn.toolCallsStart (blockOpening ++ u) = some (utf8 "\n\n", dsmlSyn.toolCallsStart ++ u) := by
    rw [blockOpening, List.append_assoc]
    exact strstr_append (by decide) _ _ (by decide)
  refine parseGeneratedMessageEx_calls hstart hmark (r := []) ?_
  have hfuel : (dsmlSyn.toolCallsStart ++ u).length + 1 = u.length + dsmlSyn.toolCallsStart.length + 1 := by
    rw [List.length_append]
    omega
  rw [List.drop_left, hfuel]
  exact h _

theorem CallsText.length {cs : List ToolCall} {s : Bytes} (h : CallsText cs s) : cs.length ≤ s.length := by
  induction h with
  | nil => exact Nat.zero_le _
  | cons _ _ _ ih =>
    simp only [List.length_append, List.length_cons] at ih ⊢
    omega

/-- Whole calls come back as they were. -/
theorem readBack_done {done : List ToolCall} (hok : ∀ c ∈ done, ∀ a ∈ callArgs c, a.Ok)
    (hparse : ∀ c ∈ done, ∃ args, jsonArgsParse c.arguments = some args) :
    (done.map fun c => readBack c (callArgs c)).map (fun tc => (tc.name, tc.members)) =
      done.map fun tc => (tc.name, tc.members) := by
  rw [List.map_map]
  refine List.map_congr_left fun c hc => ?_
  obtain ⟨args, hargs⟩ := hparse c hc
  have hcall : callArgs c = args := by rw [callArgs, hargs, Option.getD_some]
  have hmembers := readBack_members (c := c) (hok c hc)
  show ((readBack c (callArgs c)).name, (readBack c (callArgs c)).members) = (c.name, c.members)
  rw [hmembers, hcall, ToolCall.members, hargs]
  rfl

/-- What comes back of the call the cut is in. -/
theorem CallCut.read {x : CutCall} {v : Bytes} (h : CallCut x v) (hx : x.Fine) (hok : ∀ a ∈ callArgs x.call, a.Ok)
    (hfree : ∀ a ∈ callArgs x.call, TagFree a.value) :
    (∀ a ∈ x.read, a.Ok) ∧ FirstParams (callArgs x.call) x.read := by
  cases h with
  | @params c args r w hargs _ =>
    have hread : CutCall.read ⟨c, args, none⟩ = args := List.append_nil args
    rw [hread]
    exact ⟨fun a ha => hok a (hargs ▸ List.mem_append_left r ha), .inl ⟨r, hargs⟩⟩
  | @value c args r a w p hargs _ hp =>
    have ha : a ∈ callArgs c := hargs ▸ List.mem_append_right args List.mem_cons_self
    rw [paramBody_free (hfree a ha)] at hp
    have hread : CutCall.read ⟨c, args, some (a, p)⟩ = args ++ [a.cutTo p] := rfl
    have hreads := hx.value a p rfl
    rw [hread]
    constructor
    · intro b hb
      rcases List.mem_append.mp hb with hb | hb
      · exact hok b (hargs ▸ List.mem_append_left _ hb)
      · rw [List.mem_singleton.mp hb]
        exact cutTo_ok (hok a ha) hp
    · unfold ValueReads at hreads
      unfold JsonArg.cutTo
      split
      next hs =>
        rw [if_pos hs] at hreads
        exact .inr ⟨args, a, r, _, hargs, hs, hreads.2, rfl⟩
      next => exact .inl ⟨r, by rw [hargs]; simp⟩

/-- A cut where all that is left can be read again is repaired. -/
theorem CutAt.repaired {calls done : List ToolCall} {part : Option CutCall} {u : Bytes} (h : CutAt calls done part u)
    (hfine : CutFine done part (blockOpening ++ u)) (hnul : (0 : UInt8) ∉ blockOpening ++ u)
    (hok : ∀ c ∈ calls, ∀ a ∈ callArgs c, a.Ok) (hfree : ∀ c ∈ calls, ∀ a ∈ callArgs c, TagFree a.value) :
    Repaired calls (blockOpening ++ u) := by
  have hclosing : ∀ p i b, ∀ x ∈ List.replicate p dsmlSyn.paramEnd ++
      (List.replicate i dsmlSyn.invokeEnd ++ List.replicate b dsmlSyn.toolCallsEnd),
      x ∈ [dsmlSyn.paramEnd, dsmlSyn.invokeEnd, dsmlSyn.toolCallsEnd] := by
    intro p i b x hx
    rcases List.mem_append.mp hx with hx | hx
    · rw [(List.mem_replicate.mp hx).2]
      exact List.mem_cons_self
    · rcases List.mem_append.mp hx with hx | hx
      · rw [(List.mem_replicate.mp hx).2]
        exact List.mem_cons_of_mem _ List.mem_cons_self
      · rw [(List.mem_replicate.mp hx).2]
        exact List.mem_cons_of_mem _ (List.mem_cons_of_mem _ List.mem_cons_self)
  cases h with
  | @between r u hcalls hdone =>
    have hmem : ∀ c ∈ done, c ∈ calls := fun c hc => hcalls ▸ List.mem_append_left r hc
    have hokd := fun c hc => hok c (hmem c hc)
    have hfreed := fun c hc => hfree c (hmem c hc)
    have hfound := hdone.found hfreed []
    rw [List.append_nil, tagsFound, List.append_nil] at hfound
    have hnest := nest_calls done
    rw [← hfound] at hnest
    have hlen := hdone.length
    obtain ⟨msg, hmsg, hgot⟩ := parse_opened (u ++ dsmlSyn.tag .toolCallsEnd)
      (done.map fun c => readBack c (callArgs c)) fun n => by
        obtain ⟨m, hm⟩ : ∃ m, (u ++ dsmlSyn.tag .toolCallsEnd).length + n + 1 = done.length + (m + 1) :=
          ⟨(u ++ dsmlSyn.tag .toolCallsEnd).length + n - done.length, by
            rw [List.length_append]
            omega⟩
        rw [hm, hdone.parse hokd (fun c hc => (hfine.done c hc).2) hfreed, parseInvokes_end, Option.map_some,
          List.append_nil]
    refine ⟨_, hclosing 0 0 1, tryRepairDsml_block hnul hfine.thinking hnest, msg, ?_, done, r, hcalls, .inl ?_⟩
    · rw [← hmsg, List.append_assoc]
      rfl
    · rw [hgot]
      exact readBack_done hokd fun c hc => (hfine.done c hc).1
  | @call r x u v hcalls hdone hx =>
    have hmem : ∀ c ∈ done, c ∈ calls := fun c hc => hcalls ▸ List.mem_append_left _ hc
    have hcall : x.call ∈ calls := hcalls ▸ List.mem_append_right done List.mem_cons_self
    have hokd := fun c hc => hok c (hmem c hc)
    have hfreed := fun c hc => hfree c (hmem c hc)
    have hxfine := hfine.part x rfl
    have hnest := (nest_calls done).append (hx.found (hfree x.call hcall))
    rw [← hdone.found hfreed, Nat.zero_add, Nat.zero_add] at hnest
    obtain ⟨hread, hfirst⟩ := hx.read hxfine (hok x.call hcall) (hfree x.call hcall)
    have hlen := hdone.length
    obtain ⟨msg, hmsg, hgot⟩ := parse_opened (u ++ (v ++ (x.closing.flatten ++ dsmlSyn.tag .toolCallsEnd)))
      ((done.map fun c => readBack c (callArgs c)) ++ [readBack x.call x.read]) fun n => by
        obtain ⟨m, hm⟩ : ∃ m, (u ++ (v ++ (x.closing.flatten ++ dsmlSyn.tag .toolCallsEnd))).length + n + 1 =
            done.length + (m + 2) :=
          ⟨(u ++ (v ++ (x.closing.flatten ++ dsmlSyn.tag .toolCallsEnd))).length + n - done.length - 1, by
            have hpos : 0 < (dsmlSyn.tag .toolCallsEnd).length := by decide
            simp only [List.length_append]
            omega⟩
        rw [hm, hdone.parse hokd (fun c hc => (hfine.done c hc).2) hfreed,
          hx.parse hxfine (hok x.call hcall) (hfree x.call hcall), Option.map_some]
    refine ⟨_, hclosing x.pending 1 1, tryRepairDsml_block hnul hfine.thinking hnest, msg, ?_, done, _, hcalls,
      .inr ⟨x.call, r, x.read, rfl, hfirst, ?_⟩⟩
    · rw [← hmsg]
      simp [CutCall.closing, CutCall.pending, DsmlSyntax.tag]
    · rw [hgot, List.map_append, readBack_done hokd fun c hc => (hfine.done c hc).1, List.map_singleton,
        readBack_members hread]
      rfl

/-- **The repair of a truncated block.** Each cut behind the opening tag and outside the
    tags stands between two calls or in one of them, and is repaired where all that is left
    can be read again; and no text whatever gets a closing tag that it does not miss. -/
theorem truncated_repair (calls : List ToolCall) (hne : calls ≠ []) (hargs : ∀ c ∈ calls, (0 : UInt8) ∉ c.arguments)
    (htext : (0 : UInt8) ∉ appendDsmlToolCallsText [] calls)
    (hfree : ∀ c ∈ calls, ∀ a ∈ callArgs c, TagFree a.value) :
    (∀ t, Truncated calls t → (∃ u done part, t = blockOpening ++ u ∧ CutAt calls done part u) ∧
      ∀ u done part, t = blockOpening ++ u → CutAt calls done part u → CutFine done part t → Repaired calls t) ∧
    ∀ s out, tryRepairDsml s = some out → OnlyCloses s out := by
  refine ⟨fun t ht => ⟨cutAt hne ht, ?_⟩, fun s out h => tryRepairDsml_sound h⟩
  rintro u done part rfl hat hfine
  have hsub : blockOpening ++ u <+: appendDsmlToolCallsText [] calls := blockPieces_text calls hne ▸ ht.cut.isPrefix
  exact hat.repaired hfine (fun h => htext (hsub.subset h)) (fun c hc => callArgs_ok (hargs c hc)) hfree

/-- A call of one parameter, cut off in its value. -/
def valueCut (c : ToolCall) (a : JsonArg) (p : Bytes) : Bytes :=
  blockOpening ++ ([10] ++ (invokeTag c.name ++ 62 :: ([10] ++ argText a p)))

theorem valueCut_cut {c : ToolCall} {a : JsonArg} {p : Bytes} (hargs : callArgs c = [a]) (hp : p <+: paramBody a) :
    PieceCut (blockPieces [c]) (valueCut c a p) := by
  have hvalue : PieceCut (.text (paramBody a) :: .tag .paramEnd [] :: .text [10] :: .tag .invokeEnd [] :: .text [10] ::
      [.tag .toolCallsEnd []]) p := .inside hp
  have hcut := PieceCut.behind (x := .text [10, 10]) (PieceCut.behind (x := .tag .toolCallsStart []) (PieceCut.behind (x := .text [10])
    (PieceCut.behind (x := .tag .invokeStart (nameAttr c.name ++ [62])) (PieceCut.behind (x := .text [10])
      (PieceCut.behind (x := .tag .paramStart (nameAttr a.key ++ stringAttr a ++ [62])) hvalue)))))
  have hpieces : blockPieces [c] = .text [10, 10] :: .tag .toolCallsStart [] :: .text [10] ::
      .tag .invokeStart (nameAttr c.name ++ [62]) :: .text [10] ::
        .tag .paramStart (nameAttr a.key ++ stringAttr a ++ [62]) :: .text (paramBody a) :: .tag .paramEnd [] ::
          .text [10] :: .tag .invokeEnd [] :: .text [10] :: [.tag .toolCallsEnd []] := by
    simp [blockPieces, callPieces, hargs, argPieces]
  have hopen : blockOpening = [10, 10] ++ dsmlSyn.tag .toolCallsStart := rfl
  have hvalueText := argText_append a p []
  rw [List.append_nil, List.append_nil] at hvalueText
  rw [hpieces, valueCut, hvalueText, hopen]
  rw [invokeTag_text, paramTag_text] at hcut
  simp only [Piece.bytes, List.append_assoc, List.cons_append, List.nil_append, List.append_nil] at hcut ⊢
  exact hcut

def stringArg (value : String) : JsonArg := { key := utf8 "c", value := utf8 value, isString := true }

/-- A call with one string. -/
def stringCall (value : String) : ToolCall :=
  { name := utf8 "w", arguments := utf8 ("\x7b\"c\": \"" ++ value ++ "\"\x7d") }

/-- A value cut after its first byte. -/
theorem truncated_repair_sample :
    Repaired [stringCall "ab"] (valueCut (stringCall "ab") (stringArg "ab") (utf8 "a")) := by
  have hargs : callArgs (stringCall "ab") = [stringArg "ab"] := by decide +kernel
  have hfree : ∀ c ∈ [stringCall "ab"], ∀ a ∈ callArgs c, TagFree a.value := by
    intro c hc a ha
    rw [List.mem_singleton.mp hc, hargs] at ha
    rw [List.mem_singleton.mp ha]
    intro t
    cases t <;> decide +kernel
  have hp : utf8 "a" <+: paramBody (stringArg "ab") := by decide +kernel
  have hcut : Truncated [stringCall "ab"] (valueCut (stringCall "ab") (stringArg "ab") (utf8 "a")) :=
    ⟨valueCut_cut hargs hp, List.prefix_append _ _, by decide +kernel⟩
  have hcall : CallCut ⟨stringCall "ab", [], some (stringArg "ab", utf8 "a")⟩
      (invokeTag (stringCall "ab").name ++ 62 :: ([10] ++ argText (stringArg "ab") (utf8 "a"))) :=
    .value (r := []) hargs (.nil blank_line) hp
  have hat : CutAt [stringCall "ab"] [] (some ⟨stringCall "ab", [], some (stringArg "ab", utf8 "a")⟩)
      ([10] ++ (invokeTag (stringCall "ab").name ++ 62 :: ([10] ++ argText (stringArg "ab") (utf8 "a")))) :=
    .call (r := []) rfl (.nil blank_line) hcall
  refine ((truncated_repair [stringCall "ab"] (by simp) ?_ (by decide +kernel) hfree).1 _ hcut).2 _ _ _ rfl hat ?_
  · intro c hc
    rw [List.mem_singleton.mp hc]
    decide +kernel
  · refine ⟨by decide +kernel, fun c hc => absurd hc List.not_mem_nil, ?_⟩
    rintro x hx
    obtain rfl := Option.some.inj hx
    refine ⟨fun a ha => absurd ha List.not_mem_nil, ?_⟩
    rintro a p hap
    obtain ⟨rfl, rfl⟩ := Prod.mk.inj (Option.some.inj hap)
    exact ⟨by decide +kernel, by decide +kernel⟩

/-- A string that quotes the end of thinking hides the opening tag from the repair. -/
theorem quoted_think_unrepaired : Truncated [stringCall "</think>"]
      (valueCut (stringCall "</think>") (stringArg "</think>") (utf8 "</think>")) ∧
    (∀ a ∈ callArgs (stringCall "</think>"), TagFree a.value) ∧
    ¬ Repaired [stringCall "</think>"] (valueCut (stringCall "</think>") (stringArg "</think>") (utf8 "</think>")) := by
  have hargs : callArgs (stringCall "</think>") = [stringArg "</think>"] := by decide +kernel
  refine ⟨⟨valueCut_cut hargs (by decide +kernel), List.prefix_append _ _, by decide +kernel⟩, ?_, ?_⟩
  · intro a ha
    rw [hargs] at ha
    rw [List.mem_singleton.mp ha]
    intro t
    cases t <;> decide +kernel
  · rintro ⟨closing, -, hrepair, -⟩
    have hnone : tryRepairDsml (valueCut (stringCall "</think>") (stringArg "</think>") (utf8 "</think>")) = none := by
      decide +kernel
    rw [hnone] at hrepair
    cases hrepair

end Ds4.Server
