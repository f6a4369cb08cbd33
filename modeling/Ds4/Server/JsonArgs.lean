import Mathlib.Data.List.Forall2
import Ds4.Server.JsonValue

/- Tool-call arguments of ds4_server.c: the reader `json_args_parse` of an
   arguments object and the writer of the generated-DSML parser,
   `tool_call_json_args_add` between braces.

   PROVED here: what the reader accepts (`jsonArgsParse_ok`), and that it reads
   back the members of every object that spells them (`jsonArgsParse_spelled`),
   those the writer wrote among them (`jsonArgsParse_object`).

   A member keeps its key and value as C strings, and says whether the value was
   a JSON string; any other value is kept as its minified text. -/
namespace Ds4.Server
open Bytes

structure JsonArg where
  key : Bytes
  value : Bytes
  isString : Bool
  deriving DecidableEq

/-! ## Reader -/

/-- The value of a member and the text after it. -/
def jsonArgValue (key s : Bytes) : Option (JsonArg × Bytes) :=
  if startsWith [34] s then
    (jsonString s).map fun v => ({ key := key, value := v.1, isString := true }, v.2)
  else
    (jsonRawValue s).map fun v =>
      ({ key := key, value := jsonMinifyRawValue v.1, isString := false }, v.2)

/-- A comma after a member is taken if it is there. -/
def skipComma : Bytes → Bytes
  | 44 :: s => s
  | s => s

/-- The loop over the members; every round takes a byte or more. -/
def jsonArgsLoop : Nat → Bytes → Option (List JsonArg)
  | 0, _ => none
  | fuel + 1, s =>
    if startsWith [125] s then some []
    else do
      let (key, r) ← jsonString s
      let r := skipWs r
      if !startsWith [58] r then none
      else do
        let (arg, r) ← jsonArgValue key (skipWs (r.drop 1))
        let args ← jsonArgsLoop fuel (skipWs (skipComma (skipWs r)))
        some (arg :: args)

def jsonArgsParse (json : Bytes) : Option (List JsonArg) :=
  let s := skipWs json
  if startsWith [123] s then
    let s := skipWs (s.drop 1)
    jsonArgsLoop s.length s
  else none

/-! ## Writer -/

/-- `is_string` is the attribute's text: only `true` writes a JSON string. -/
def toolCallJsonMember (name value isString : Bytes) : Bytes :=
  jsonEscape name ++ utf8 ": " ++
    (if isString = utf8 "true" then jsonEscape value
     else
      let min := jsonMinifyRawValue value
      if min = [] then utf8 "null" else min)

def toolCallJsonArgsAdd (args name value isString : Bytes) : Bytes :=
  (if args = [] then [] else args ++ utf8 ", ") ++ toolCallJsonMember name value isString

def appendJsonArgPair (arg : JsonArg) : Bytes :=
  jsonEscape arg.key ++ utf8 ":" ++ if arg.isString then jsonEscape arg.value else arg.value

/-- The object as it goes to a client, `{}` for a text that is none. -/
def appendJsonObjectOrEmpty (json : Bytes) : Bytes :=
  match jsonArgsParse json with
  | some args => 123 :: (utf8 ",").intercalate (args.map appendJsonArgPair) ++ [125]
  | none => utf8 "\x7b\x7d"

theorem toolCallJsonMember_ne_nil (name value isString : Bytes) :
    toolCallJsonMember name value isString ≠ [] := by
  simp [toolCallJsonMember, jsonEscape]

/-- One call of the writer adds one item to a list between commas. -/
theorem toolCallJsonArgsAdd_intercalate (name value isString : Bytes) {l : List Bytes}
    (hl : ∀ t ∈ l, t ≠ []) : toolCallJsonArgsAdd ((utf8 ", ").intercalate l) name value isString =
      (utf8 ", ").intercalate (l ++ [toolCallJsonMember name value isString]) := by
  rw [toolCallJsonArgsAdd]
  generalize toolCallJsonMember name value isString = m
  induction l with
  | nil => simp
  | cons t l ih =>
    rw [List.forall_mem_cons] at hl
    cases l with
    | nil => simp [hl.1]
    | cons u l =>
      have ih := ih hl.2
      have hu : (utf8 ", ").intercalate (u :: l) ≠ [] := by
        rw [List.forall_mem_cons] at hl
        cases l with
        | nil => simpa using hl.2.1
        | cons => simp [List.intercalate_cons_cons, hl.2.1]
      rw [if_neg hu] at ih
      rw [if_neg (by simp [List.intercalate_cons_cons, hl.1]), List.cons_append, List.cons_append,
        List.intercalate_cons_cons, List.intercalate_cons_cons, ← List.cons_append, ← ih]
      simp only [List.append_assoc]

/-! ## Members -/

/-- A member as the reader makes it: C strings, and a minified value unless the
    value is a string. -/
structure JsonArg.Ok (a : JsonArg) : Prop where
  key : (0 : UInt8) ∉ a.key
  string : a.isString = true → (0 : UInt8) ∉ a.value
  spell : a.isString = false → JsonSpell .value jsonMaxNesting a.value a.value
  unquoted : a.isString = false → startsWith [34] a.value = false

theorem jsonString_no_nul {s v r : Bytes} (h : jsonString s = some (v, r)) : (0 : UInt8) ∉ v := by
  unfold jsonString at h
  split at h
  · obtain ⟨⟨out, r'⟩, -, he⟩ := Option.map_eq_some_iff.mp h
    cases he
    exact cstr_no_nul out
  · cases h

theorem jsonArgValue_ok {key s r : Bytes} {a : JsonArg} (hkey : (0 : UInt8) ∉ key)
    (h : jsonArgValue key (skipWs s) = some (a, r)) : a.Ok := by
  unfold jsonArgValue at h
  split at h
  · obtain ⟨⟨v, r'⟩, hv, he⟩ := Option.map_eq_some_iff.mp h
    cases he
    exact ⟨hkey, fun _ => jsonString_no_nul hv, fun h => (by cases h), fun h => (by cases h)⟩
  · next hquote =>
    obtain ⟨⟨raw, r'⟩, hv, he⟩ := Option.map_eq_some_iff.mp h
    cases he
    obtain ⟨m, hm, hs⟩ := jsonRawValue_sound hv
    have hmin := hm.minifyRaw
    refine ⟨hkey, fun h => (by cases h), fun _ => ?_, fun _ => ?_⟩
    · rw [hmin]
      exact hm.minified
    · have hq := hm.value_quote []
      rw [List.append_nil] at hq
      rw [hmin, hq, Bool.eq_false_iff]
      intro hraw
      apply hquote
      obtain ⟨x, hx⟩ := startsWith_iff.mp hraw
      rw [skipWs_skipWs] at hs
      rw [hs, hx, List.append_assoc]
      exact startsWith_append _ _

theorem jsonArgsLoop_ok : ∀ {fuel : Nat} {s : Bytes} {args : List JsonArg},
    jsonArgsLoop fuel s = some args → ∀ a ∈ args, a.Ok
  | 0, _, _, h => by cases h
  | fuel + 1, s, args, h => by
    rw [jsonArgsLoop] at h
    split at h
    · cases h
      exact fun a ha => by cases ha
    · simp only [Option.bind_eq_bind, Option.bind_eq_some_iff] at h
      obtain ⟨⟨key, r⟩, hkey, h⟩ := h
      split at h
      · cases h
      · simp only [Option.bind_eq_some_iff] at h
        obtain ⟨⟨a, r'⟩, ha, args', hargs, he⟩ := h
        cases he
        rw [List.forall_mem_cons]
        exact ⟨jsonArgValue_ok (jsonString_no_nul hkey) ha, jsonArgsLoop_ok hargs⟩

/-- What the reader accepts is a list of such members. -/
theorem jsonArgsParse_ok {json : Bytes} {args : List JsonArg} (h : jsonArgsParse json = some args) :
    ∀ a ∈ args, a.Ok := by
  unfold jsonArgsParse at h
  dsimp only at h
  split at h
  · exact jsonArgsLoop_ok h
  · cases h

/-! ## The object the writer spells -/

def memberText (a : JsonArg) : Bytes :=
  jsonEscape a.key ++ utf8 ": " ++ if a.isString then jsonEscape a.value else a.value

def membersText (l : List JsonArg) : Bytes := (utf8 ", ").intercalate (l.map memberText)

theorem toolCallJsonArgsAdd_membersText {a : JsonArg} {l : List JsonArg} {name value isString : Bytes}
    (h : toolCallJsonMember name value isString = memberText a) :
    toolCallJsonArgsAdd (membersText l) name value isString = membersText (l ++ [a]) := by
  have hl : ∀ t ∈ l.map memberText, t ≠ [] := by
    intro t ht
    obtain ⟨b, -, rfl⟩ := List.mem_map.mp ht
    simp [memberText, jsonEscape]
  rw [membersText, toolCallJsonArgsAdd_intercalate _ _ _ hl, h, membersText, List.map_append]
  rfl

/-! ## Spelled members -/

/-- `t` spells the member's value: a string literal, or a value with its blanks. -/
inductive ValueSpell (a : JsonArg) : Bytes → Prop
  | string {s : Bytes} : a.isString = true → StringSpell s a.value → ValueSpell a s
  | other {v : Bytes} : a.isString = false → startsWith [34] v = false →
      JsonSpell .value jsonMaxNesting v a.value → ValueSpell a v

inductive MemberSpell (a : JsonArg) : Bytes → Prop
  | mk {w s w' : Bytes} : Blank w → ValueSpell a s → Blank w' →
      MemberSpell a (jsonEscape a.key ++ 58 :: (w ++ (s ++ w')))

/-- Members between commas, each comma followed by blanks. -/
inductive MembersSpell : List JsonArg → Bytes → Prop
  | nil : MembersSpell [] []
  | one {a : JsonArg} {t : Bytes} : MemberSpell a t → MembersSpell [a] t
  | cons {a b : JsonArg} {l : List JsonArg} {t w u : Bytes} : MemberSpell a t → Blank w →
      MembersSpell (b :: l) u → MembersSpell (a :: b :: l) (t ++ 44 :: (w ++ u))

theorem blank_space : Blank [32] := by
  intro c hc
  obtain rfl := List.mem_singleton.mp hc
  rfl

theorem JsonArg.Ok.valueSpell {a : JsonArg} (ha : a.Ok) :
    ValueSpell a (if a.isString then jsonEscape a.value else a.value) := by
  cases hs : a.isString with
  | true => exact .string hs (stringSpell_escape (ha.string hs))
  | false => exact .other hs (ha.unquoted hs) (ha.spell hs)

theorem JsonArg.Ok.memberSpell {a : JsonArg} (ha : a.Ok) : MemberSpell a (memberText a) := by
  have h := MemberSpell.mk blank_space ha.valueSpell blank_nil
  rw [List.append_nil] at h
  rw [memberText, List.append_assoc]
  exact h

theorem JsonArg.Ok.pairSpell {a : JsonArg} (ha : a.Ok) : MemberSpell a (appendJsonArgPair a) := by
  have h := MemberSpell.mk blank_nil ha.valueSpell blank_nil
  rw [List.append_nil] at h
  rw [appendJsonArgPair, List.append_assoc]
  exact h

/-- A list of member texts between commas. -/
theorem membersSpell_intercalate {w : Bytes} (hw : Blank w) {l : List JsonArg} {ts : List Bytes}
    (h : List.Forall₂ MemberSpell l ts) : MembersSpell l ((44 :: w).intercalate ts) := by
  induction h with
  | nil => exact .nil
  | @cons a t l ts ha hl ih =>
    cases hl with
    | nil =>
      rw [List.intercalate_singleton]
      exact .one ha
    | cons hb hl =>
      rw [List.intercalate_cons_cons, List.append_assoc]
      exact .cons ha hw ih

/-- What the writers wrote is spelled. -/
theorem membersSpell_map {text : JsonArg → Bytes} (htext : ∀ a : JsonArg, a.Ok → MemberSpell a (text a))
    {w : Bytes} (hw : Blank w) {l : List JsonArg} (hl : ∀ a ∈ l, a.Ok) :
    MembersSpell l ((44 :: w).intercalate (l.map text)) := by
  apply membersSpell_intercalate hw
  rw [List.forall₂_map_right_iff, List.forall₂_same]
  exact fun a ha => htext a (hl a ha)

/-- A value is read up to what delimits it. -/
theorem ValueSpell.read {a : JsonArg} {s : Bytes} (h : ValueSpell a s) {k : Bytes} (hk : Delimited k) :
    jsonArgValue a.key (s ++ k) = some (a, k) ∧ skipWs (s ++ k) = s ++ k := by
  obtain ⟨key, value, isString⟩ := a
  cases h with
  | string hs hv =>
    obtain ⟨body, -, rfl, hread⟩ := hv
    cases hs
    refine ⟨?_, skipWs_cons rfl _⟩
    rw [jsonArgValue, if_pos (by simp), hread]
    rfl
  | other hs hquote hv =>
    cases hs
    have hraw := hv.rawValue blank_nil hk
    rw [List.nil_append] at hraw
    have hq : startsWith [34] (s ++ k) = false := by
      cases s with
      | nil => exact absurd rfl hv.ne_nil
      | cons c r => exact hquote
    refine ⟨?_, hv.value_head k⟩
    rw [jsonArgValue, if_neg (by rw [hq]; exact Bool.false_ne_true)]
    dsimp only
    rw [hraw, Option.map_some, hv.minifyRaw]

/-- One round over a spelled member, up to the comma. -/
theorem jsonArgsLoop_member {a : JsonArg} (hkey : (0 : UInt8) ∉ a.key) {t : Bytes} (ha : MemberSpell a t)
    {c : UInt8} (hc : numberByte c = false ∧ isSpace c = false) (k : Bytes) (fuel : Nat) :
    jsonArgsLoop (fuel + 1) (t ++ c :: k) =
      (jsonArgsLoop fuel (skipWs (skipComma (c :: k)))).map (a :: ·) := by
  obtain @⟨w, s, w', hw, hs, hw'⟩ := ha
  have htext : jsonEscape a.key ++ 58 :: (w ++ (s ++ w')) ++ c :: k =
      jsonEscape a.key ++ 58 :: (w ++ (s ++ (w' ++ c :: k))) := by simp
  have hdelim : Delimited (w' ++ c :: k) := delimited_blank hw' hc.1 k
  obtain ⟨hread, hhead⟩ := hs.read hdelim
  rw [htext, jsonArgsLoop, jsonString_escape hkey, if_neg (by simp [jsonEscape])]
  simp only [Option.bind_eq_bind, Option.bind_some, skipWs_cons (c := 58) rfl, List.drop_succ_cons,
    List.drop_zero, skipWs_append hw, hhead, hread, skipWs_append hw', skipWs_cons hc.2]
  rw [if_neg (by simp)]
  cases jsonArgsLoop fuel (skipWs (skipComma (c :: k))) <;> rfl

theorem MembersSpell.head {a : JsonArg} {l : List JsonArg} {u : Bytes} (h : MembersSpell (a :: l) u) :
    ∃ r, u = 34 :: r := by
  cases h with
  | one ha =>
    obtain ⟨⟩ := ha
    exact ⟨_, rfl⟩
  | cons ha =>
    obtain ⟨⟩ := ha
    exact ⟨_, rfl⟩

theorem MembersSpell.loop {l : List JsonArg} {t : Bytes} (h : MembersSpell l t)
    (hkeys : ∀ a ∈ l, (0 : UInt8) ∉ a.key) : ∀ fuel, l.length < fuel →
    jsonArgsLoop fuel (t ++ [125]) = some l := by
  induction h with
  | nil =>
    intro fuel hfuel
    obtain ⟨n, rfl⟩ := Nat.exists_eq_succ_of_ne_zero (Nat.ne_of_gt hfuel)
    rfl
  | one ha =>
    intro fuel hfuel
    obtain ⟨n, rfl⟩ : ∃ n, fuel = n + 2 := ⟨fuel - 2, by simp at hfuel; omega⟩
    rw [jsonArgsLoop_member (hkeys _ (by simp)) ha (c := 125) (by decide)]
    rfl
  | cons ha hw hl ih =>
    intro fuel hfuel
    rw [List.forall_mem_cons] at hkeys
    obtain ⟨n, rfl⟩ := Nat.exists_eq_succ_of_ne_zero (Nat.ne_of_gt (Nat.zero_lt_of_lt hfuel))
    obtain ⟨r, hr⟩ := hl.head
    have ih := ih hkeys.2 n (by simpa using hfuel)
    rw [List.append_assoc, List.cons_append, jsonArgsLoop_member hkeys.1 ha (c := 44) (by decide),
      skipComma, List.append_assoc, skipWs_append hw]
    rw [hr] at ih ⊢
    rw [List.cons_append, skipWs_cons (c := 34) rfl, ← List.cons_append, ih]
    rfl

theorem MembersSpell.length_le {l : List JsonArg} {t : Bytes} (h : MembersSpell l t) :
    l.length ≤ t.length := by
  induction h with
  | nil => exact Nat.le_refl _
  | one ha =>
    obtain ⟨⟩ := ha
    simp [jsonEscape]
  | cons _ _ _ ih =>
    simp only [List.length_cons, List.length_append] at ih ⊢
    omega

/-- **The reader gives back the members** of every object that spells them. -/
theorem jsonArgsParse_spelled {l : List JsonArg} {t : Bytes} (h : MembersSpell l t)
    (hkeys : ∀ a ∈ l, (0 : UInt8) ∉ a.key) : jsonArgsParse (123 :: t ++ [125]) = some l := by
  have hskip : skipWs (t ++ [125]) = t ++ [125] := by
    cases l with
    | nil =>
      cases h
      rfl
    | cons a l =>
      obtain ⟨r, rfl⟩ := h.head
      rfl
  have hlen := h.length_le
  rw [jsonArgsParse, List.cons_append, skipWs_cons (c := 123) rfl]
  simp only [startsWith_cons_cons, beq_self_eq_true, startsWith_nil, Bool.and_self, if_true,
    List.drop_succ_cons, List.drop_zero, hskip]
  apply h.loop hkeys
  rw [List.length_append, List.length_singleton]
  omega

/-- Those the writer wrote among them. -/
theorem jsonArgsParse_object {l : List JsonArg} (hl : ∀ a ∈ l, a.Ok) :
    jsonArgsParse (123 :: membersText l ++ [125]) = some l :=
  jsonArgsParse_spelled (membersSpell_map (fun _ h => h.memberSpell) blank_space hl) fun a ha => (hl a ha).key

/-- A whole object and nothing after it. -/
def CompleteObject (t : Bytes) : Prop :=
  startsWith [123] t = true ∧ ∃ d m, JsonSpell .value d t m

theorem ValueSpell.spell {a : JsonArg} {s : Bytes} (h : ValueSpell a s) :
    ∃ m, JsonSpell .value jsonMaxNesting s m := by
  cases h with
  | string _ hv =>
    obtain ⟨body, hbody, rfl, -⟩ := hv
    exact ⟨_, .string hbody⟩
  | other _ _ hv => exact ⟨_, hv⟩

theorem MemberSpell.item {a : JsonArg} {t : Bytes} (h : MemberSpell a t) :
    ∃ i w m, t = i ++ w ∧ JsonSpell (.item true) jsonMaxNesting i m ∧ Blank w := by
  obtain @⟨w, s, w', hw, hs, hw'⟩ := h
  obtain ⟨m, hm⟩ := hs.spell
  refine ⟨[] ++ (34 :: jsonEscapeFragment a.key ++ 34 :: ([] ++ 58 :: (w ++ s))), w', _, ?_,
    .member blank_nil (jsonEscapeFragment_body a.key) blank_nil hw hm, hw'⟩
  simp [jsonEscape]

theorem MembersSpell.items {l : List JsonArg} {t : Bytes} (h : MembersSpell l t) (hne : l ≠ []) :
    ∃ m, JsonSpell (.items true) jsonMaxNesting (t ++ [125]) m := by
  induction h with
  | nil => exact absurd rfl hne
  | one ha =>
    obtain ⟨i, w, m, rfl, hi, hw⟩ := ha.item
    rw [List.append_assoc]
    exact ⟨_, .last true hi hw⟩
  | cons ha hw hl ih =>
    obtain ⟨ms, hms⟩ := ih (by simp)
    obtain ⟨i, w, m, rfl, hi, hw'⟩ := ha.item
    have h := JsonSpell.cons true hi hw' (hms.blank_items hw)
    simp only [List.append_assoc, List.cons_append] at h ⊢
    exact ⟨_, h⟩

theorem MembersSpell.complete {l : List JsonArg} {t : Bytes} (h : MembersSpell l t) :
    CompleteObject (123 :: t ++ [125]) := by
  refine ⟨rfl, jsonMaxNesting + 1, ?_⟩
  by_cases hne : l = []
  · subst hne
    cases h
    exact ⟨_, .empty (w := []) true blank_nil⟩
  · obtain ⟨m, hm⟩ := h.items hne
    exact ⟨_, .node true hm⟩

end Ds4.Server
