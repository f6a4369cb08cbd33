import Ds4.Server.FlatBlock

/- The repair of a tool block cut short, `try_repair_dsml` of ds4_server.c.

   Correspondence (C ↔ Lean):
     the choice of the six tags by the first opening found ↔ `repairStyle`
     the pass over the text with its six counters          ↔ `tagsFound`, each counter
                                                             the count of its tag
     `try_repair_dsml`                                     ↔ `tryRepairDsml`
   The text is a buffer of bytes: the searches and the copy see it up to its first NUL,
   the pass sees all of it.

   PROVED here: what the pass finds in a text of tags and of values without tags
   (`found_tag`, `found_text`), and that a repair appends no closing tag without an
   opening one and none to a text where no tag is missing (`tryRepairDsml_sound`). -/
namespace Ds4.Server
open Bytes

inductive DsmlTag
  | toolCallsStart
  | toolCallsEnd
  | invokeStart
  | invokeEnd
  | paramStart
  | paramEnd
  deriving DecidableEq

def DsmlSyntax.tag (syn : DsmlSyntax) : DsmlTag → Bytes
  | .toolCallsStart => syn.toolCallsStart
  | .toolCallsEnd => syn.toolCallsEnd
  | .invokeStart => syn.invokeStart
  | .invokeEnd => syn.invokeEnd
  | .paramStart => syn.paramStart
  | .paramEnd => syn.paramEnd

/-- The tags in the order in which the pass tries them. -/
def dsmlTags : List DsmlTag :=
  [.toolCallsStart, .toolCallsEnd, .invokeStart, .invokeEnd, .paramStart, .paramEnd]

def tagAt (syn : DsmlSyntax) (p : Bytes) : Option DsmlTag := dsmlTags.find? fun t => startsWith (syn.tag t) p

/-- The tags the pass counts, with the number of bytes of a tag still to step over. -/
def tagsFound (syn : DsmlSyntax) : Nat → Bytes → List DsmlTag
  | _, [] => []
  | n + 1, _ :: p => tagsFound syn n p
  | 0, c :: p =>
    match tagAt syn (c :: p) with
    | some t => t :: tagsFound syn ((syn.tag t).length - 1) p
    | none => tagsFound syn 0 p

/-- Where the pass begins: behind the last `</think>` if there is one. -/
def repairScan (s : Bytes) : Bytes :=
  match findLastSubstr (utf8 "</think>") (cstr s) with
  | some r => s.drop ((cstr s).length - r.length + 8)
  | none => s

def repairStyle (scan : Bytes) : Option DsmlStyle :=
  [DsmlStyle.dsml, .short, .plain].find? fun style => (strstr (dsmlSyntax style).toolCallsStart (cstr scan)).isSome

/-- How many more opening tags than closing ones. -/
def unclosed (found : List DsmlTag) (start close : DsmlTag) : Nat := found.count start - found.count close

/-- The missing closing tags, the innermost first. -/
def missingClosers (syn : DsmlSyntax) (found : List DsmlTag) : List Bytes :=
  List.replicate (unclosed found .paramStart .paramEnd) syn.paramEnd ++
    (List.replicate (unclosed found .invokeStart .invokeEnd) syn.invokeEnd ++
      List.replicate (unclosed found .toolCallsStart .toolCallsEnd) syn.toolCallsEnd)

/-- As many closing tags as opening ones, of each kind. -/
def Balanced (found : List DsmlTag) : Prop :=
  found.count .toolCallsStart = found.count .toolCallsEnd ∧ found.count .invokeStart = found.count .invokeEnd ∧
    found.count .paramStart = found.count .paramEnd

/-- Of some kind more closing tags than opening ones. -/
def ExtraClosers (found : List DsmlTag) : Prop :=
  found.count .toolCallsStart < found.count .toolCallsEnd ∨ found.count .invokeStart < found.count .invokeEnd ∨
    found.count .paramStart < found.count .paramEnd

instance (found : List DsmlTag) : Decidable (Balanced found) := inferInstanceAs (Decidable (_ ∧ _))

instance (found : List DsmlTag) : Decidable (ExtraClosers found) := inferInstanceAs (Decidable (_ ∨ _))

def tryRepairDsml (s : Bytes) : Option Bytes :=
  if s = [] then none
  else do
    let style ← repairStyle (repairScan s)
    let syn := dsmlSyntax style
    let found := tagsFound syn 0 (repairScan s)
    if Balanced found then none
    else if ExtraClosers found then none
    else some (cstr s ++ (missingClosers syn found).flatten)

/-! ## What a repair appends -/

/-- The result is the text and closing tags: one at least, and of each kind no more than
    the opening ones that the pass counts. -/
def OnlyCloses (s out : Bytes) : Prop :=
  ∃ style, repairStyle (repairScan s) = some style ∧
    let syn := dsmlSyntax style
    let found := tagsFound syn 0 (repairScan s)
    ∃ pe ie te, out = cstr s ++ (List.replicate pe syn.paramEnd ++
        (List.replicate ie syn.invokeEnd ++ List.replicate te syn.toolCallsEnd)).flatten ∧
      0 < pe + ie + te ∧ found.count .paramEnd + pe = found.count .paramStart ∧
      found.count .invokeEnd + ie = found.count .invokeStart ∧
      found.count .toolCallsEnd + te = found.count .toolCallsStart

theorem tryRepairDsml_sound {s out : Bytes} (h : tryRepairDsml s = some out) : OnlyCloses s out := by
  unfold tryRepairDsml at h
  split at h
  next => cases h
  next =>
    simp only [Option.bind_eq_bind, Option.bind_eq_some_iff] at h
    obtain ⟨style, hstyle, h⟩ := h
    split at h
    next => cases h
    next hbalanced =>
      split at h
      next => cases h
      next hextra =>
        have hout := Option.some.inj h
        simp only [ExtraClosers, not_or, Nat.not_lt] at hextra
        obtain ⟨ht, hi, hp⟩ := hextra
        refine ⟨style, hstyle, _, _, _, hout.symm, ?_, by unfold unclosed; omega, by unfold unclosed; omega,
          by unfold unclosed; omega⟩
        by_contra hnone
        unfold unclosed at hnone
        exact hbalanced ⟨by omega, by omega, by omega⟩

/-! ## What the pass finds -/

section
variable {syn : DsmlSyntax}

theorem found_skip (syn : DsmlSyntax) : ∀ (l p : Bytes), tagsFound syn l.length (l ++ p) = tagsFound syn 0 p
  | [], _ => by rw [List.nil_append, List.length_nil]
  | _ :: l, p => by
    rw [List.cons_append, List.length_cons, tagsFound]
    exact found_skip syn l p

theorem found_plain {c : UInt8} {p : Bytes} (h : ∀ t, startsWith (syn.tag t) (c :: p) = false) :
    tagsFound syn 0 (c :: p) = tagsFound syn 0 p := by
  have hnone : tagAt syn (c :: p) = none := by
    rw [tagAt, List.find?_eq_none]
    intro t _
    rw [h t]
    exact Bool.false_ne_true
  rw [tagsFound, hnone]

/-- The tags of the block that the renderer writes. -/
abbrev dsmlSyn : DsmlSyntax := dsmlSyntax .dsml

theorem dsmlTag_shape (t : DsmlTag) : ∃ l, dsmlSyn.tag t = 60 :: l ∧ (60 : UInt8) ∉ l := by
  cases t <;> exact ⟨_, rfl, by decide⟩

theorem found_tag (t : DsmlTag) (p : Bytes) : tagsFound dsmlSyn 0 (dsmlSyn.tag t ++ p) = t :: tagsFound dsmlSyn 0 p := by
  have hat : ∀ p, tagAt dsmlSyn (dsmlSyn.tag t ++ p) = some t := by
    intro p
    cases t <;> rfl
  obtain ⟨l, hl, -⟩ := dsmlTag_shape t
  have hat := hat p
  have hskip := found_skip dsmlSyn l p
  have hlen : (dsmlSyn.tag t).length - 1 = l.length := by rw [hl, List.length_cons, Nat.add_sub_cancel]
  rw [hl, List.cons_append] at hat ⊢
  rw [tagsFound, hat]
  simp only []
  rw [hlen, hskip]

/-- Text in which no tag can begin is passed over. -/
theorem found_no_angle {v : Bytes} (hv : (60 : UInt8) ∉ v) (p : Bytes) :
    tagsFound dsmlSyn 0 (v ++ p) = tagsFound dsmlSyn 0 p := by
  induction v with
  | nil => rfl
  | cons c v ih =>
    rw [List.mem_cons, not_or] at hv
    rw [List.cons_append, found_plain, ih hv.2]
    intro t
    obtain ⟨l, hl, -⟩ := dsmlTag_shape t
    rw [hl, startsWith_cons_cons, beq_eq_false_iff_ne.mpr hv.1, Bool.false_and]

/-- None of the six tags stands in the text. -/
def TagFree (v : Bytes) : Prop := ∀ t, ¬ dsmlSyn.tag t <:+: v

/-- So is a text without tags, up to the next tag or the end. -/
theorem found_text {v : Bytes} (hv : TagFree v) {p : Bytes} (hp : ∀ c, p.head? = some c → c = 60) :
    tagsFound dsmlSyn 0 (v ++ p) = tagsFound dsmlSyn 0 p := by
  induction v with
  | nil => rfl
  | cons c v ih =>
    have hrest : TagFree v := fun t h => hv t (List.infix_cons h)
    rw [List.cons_append, found_plain, ih hrest]
    intro t
    obtain ⟨l, hl, hangle⟩ := dsmlTag_shape t
    rw [Bool.eq_false_iff]
    intro hs
    -- the tag would end before the next one begins
    have hshort : startsWith (dsmlSyn.tag t) (c :: v) = true := by
      rw [hl, startsWith_cons_cons, Bool.and_eq_true] at hs ⊢
      refine ⟨hs.1, ?_⟩
      cases p with
      | nil => rw [← List.append_nil v]; exact hs.2
      | cons d p =>
        obtain rfl := hp d rfl
        rw [← startsWith_append_cons hangle p v]
        exact hs.2
    obtain ⟨r, hr⟩ := startsWith_iff.mp hshort
    exact hv t ⟨[], r, hr.symm⟩

end

end Ds4.Server
