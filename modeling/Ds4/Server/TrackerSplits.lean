import Ds4.Server.DecodeTracker
import Ds4.Server.ToolStream

/- What the tracker makes of a text that comes in pieces.

   In a value the tracker goes past a byte it cannot place, also past a `<` that is
   the last byte it has. When that `<` began the end tag of the value, the tag is
   missed, and the tracker stays in the value. `TagCut` is this one place. PROVED
   here: fed any pieces, the tracker is where one update on the whole text leaves
   it, after every piece and also after a part of it, exactly when no piece begins
   at such a place (`tracker_splits`). -/
namespace Ds4.Server
open Ds4 Bytes Turns Runs

/-! ## Opening markers -/

section
variable {s : Bytes} {best : Option (Nat × DsmlStyle)} {style : DsmlStyle}

abbrev startTag (style : DsmlStyle) : Bytes := (dsmlSyntax style).toolCallsStart

theorem startTag_shape (style : DsmlStyle) : ∃ l, startTag style = 60 :: l ∧ (60 : UInt8) ∉ l := by
  cases style with
  | dsml => exact ⟨(startTag .dsml).tail, by decide, by decide⟩
  | short => exact ⟨(startTag .short).tail, by decide, by decide⟩
  | plain => exact ⟨(startTag .plain).tail, by decide, by decide⟩

theorem startTag_le (style : DsmlStyle) : (startTag style).length ≤ dsmlMaxToolStartLen := by
  cases style <;> decide

theorem startTag_apart {a b : DsmlStyle} (h : startTag a <+: startTag b) : a = b := by
  revert h
  cases a <;> cases b <;> decide

/-- The best find of some spellings: the first place where one of them stands. -/
def BestOf (s : Bytes) (styles : List DsmlStyle) : Option (Nat × DsmlStyle) → Prop
  | none => ∀ style ∈ styles, ∀ i, startsWith (startTag style) (s.drop i) = false
  | some (n, style) => startsWith (startTag style) (s.drop n) = true ∧
      ∀ style ∈ styles, ∀ i < n, startsWith (startTag style) (s.drop i) = false

theorem betterStart_best {styles : List DsmlStyle} (style : DsmlStyle) (h : BestOf s styles best) :
    BestOf s (styles ++ [style]) (betterStart s best style) := by
  unfold betterStart
  split
  next hnone =>
    have hno := strstr_nowhere hnone
    cases best with
    | none =>
      intro st hst i
      rcases List.mem_append.mp hst with hst | hst
      · exact h st hst i
      · rw [List.mem_singleton.mp hst]
        exact hno i
    | some q =>
      refine ⟨h.1, fun st hst i hi => ?_⟩
      rcases List.mem_append.mp hst with hst | hst
      · exact h.2 st hst i hi
      · rw [List.mem_singleton.mp hst]
        exact hno i
  next before r hfound =>
    obtain ⟨hat, hbefore⟩ := strstr_index hfound
    cases best with
    | none =>
      refine ⟨hat, fun st hst i hi => ?_⟩
      rcases List.mem_append.mp hst with hst | hst
      · exact h st hst i
      · rw [List.mem_singleton.mp hst]
        exact hbefore i hi
    | some q =>
      obtain ⟨n, old⟩ := q
      simp only []
      split
      next hlt =>
        refine ⟨hat, fun st hst i hi => ?_⟩
        rcases List.mem_append.mp hst with hst | hst
        · exact h.2 st hst i (by omega)
        · rw [List.mem_singleton.mp hst]
          exact hbefore i hi
      next hge =>
        refine ⟨h.1, fun st hst i hi => ?_⟩
        rcases List.mem_append.mp hst with hst | hst
        · exact h.2 st hst i hi
        · rw [List.mem_singleton.mp hst]
          exact hbefore i (by omega)

theorem dsmlFindToolStart_best (s : Bytes) : BestOf s dsmlStyles (dsmlFindToolStart s) := by
  have hnone : BestOf s [] none := fun st hst => absurd hst List.not_mem_nil
  have h1 := betterStart_best .dsml hnone
  have h2 := betterStart_best .short h1
  exact betterStart_best .plain h2

theorem mem_dsmlStyles (style : DsmlStyle) : style ∈ dsmlStyles := by
  cases style <;> decide

theorem dsmlFindToolStart_none (h : dsmlFindToolStart s = none) (style : DsmlStyle) (i : Nat) :
    startsWith (startTag style) (s.drop i) = false := by
  have hb := dsmlFindToolStart_best s
  rw [h] at hb
  exact hb style (mem_dsmlStyles style) i

/-- The first place where a marker stands is the one found. -/
theorem dsmlFindToolStart_eq {n : Nat} (hat : startsWith (startTag style) (s.drop n) = true)
    (hbefore : ∀ st, ∀ i < n, startsWith (startTag st) (s.drop i) = false) :
    dsmlFindToolStart s = some (n, style) := by
  have hb := dsmlFindToolStart_best s
  cases hf : dsmlFindToolStart s with
  | none =>
    rw [dsmlFindToolStart_none hf style n] at hat
    cases hat
  | some q =>
    obtain ⟨k, st⟩ := q
    rw [hf] at hb
    obtain ⟨hk, hkbefore⟩ := hb
    have hnk : ¬n < k := fun hlt => by
      rw [hkbefore style (mem_dsmlStyles style) n hlt] at hat
      cases hat
    have hkn : ¬k < n := fun hlt => by
      rw [hbefore st k hlt] at hk
      cases hk
    obtain rfl : k = n := by omega
    rcases List.prefix_or_prefix_of_prefix (List.isPrefixOf_iff_prefix.mp hk) (List.isPrefixOf_iff_prefix.mp hat) with h | h
    · rw [startTag_apart h]
    · rw [startTag_apart h]

theorem dsmlFindToolStart_some {n : Nat} (h : dsmlFindToolStart s = some (n, style)) :
    startsWith (startTag style) (s.drop n) = true ∧
      ∀ st, ∀ i < n, startsWith (startTag st) (s.drop i) = false := by
  have hb := dsmlFindToolStart_best s
  rw [h] at hb
  exact ⟨hb.1, fun st i hi => hb.2 st (mem_dsmlStyles st) i hi⟩

end

section
variable {s ext : Bytes}

theorem startsWith_length {lit s : Bytes} (h : startsWith lit s = true) : lit.length ≤ s.length := by
  obtain ⟨r, rfl⟩ := startsWith_iff.mp h
  simp

/-- A marker that fits in what was there stood there already. -/
theorem startsWith_fits {lit : Bytes} {i : Nat} (h : startsWith lit ((s ++ ext).drop i) = true)
    (hfit : i + lit.length ≤ s.length) : startsWith lit (s.drop i) = true := by
  rw [List.drop_append_of_le_length (by omega)] at h
  rwa [startsWith_append_long ext (by rw [List.length_drop]; omega)] at h

theorem startsWith_more {lit : Bytes} (h : startsWith lit s = true) (ext : Bytes) : startsWith lit (s ++ ext) = true := by
  obtain ⟨r, rfl⟩ := startsWith_iff.mp h
  exact startsWith_iff.mpr ⟨r ++ ext, List.append_assoc _ _ _⟩

/-- Two markers do not overlap. -/
theorem markers_apart {a b : DsmlStyle} {i n : Nat} (ha : startsWith (startTag a) (s.drop i) = true)
    (hb : startsWith (startTag b) (s.drop n) = true) (hin : i < n) : i + (startTag a).length ≤ n := by
  by_contra hlt
  obtain ⟨la, hla, hno⟩ := startTag_shape a
  obtain ⟨lb, hlb, -⟩ := startTag_shape b
  obtain ⟨ra, hra⟩ := startsWith_iff.mp ha
  obtain ⟨rb, hrb⟩ := startsWith_iff.mp hb
  -- the byte at `n` is the bracket of the one and inside the other
  have hbyte : s[n]? = some 60 := by
    have : (s.drop n)[0]? = some 60 := by rw [hrb, hlb]; rfl
    simpa using this
  have hbyte' : s[n]? = la[n - i - 1]? := by
    have hd : (s.drop i)[n - i]? = s[n]? := by
      rw [List.getElem?_drop]
      congr 1
      omega
    rw [← hd, hra, hla, List.cons_append]
    have hlen : n - i - 1 < la.length := by
      rw [hla, List.length_cons] at hlt
      omega
    obtain ⟨k, hk⟩ : ∃ k, n - i = k + 1 := ⟨n - i - 1, by omega⟩
    rw [hk, List.getElem?_cons_succ, Nat.add_sub_cancel, List.getElem?_append_left (by omega)]
  rw [hbyte] at hbyte'
  exact hno (List.mem_of_getElem? hbyte'.symm)

/-- A marker found stays the first when the text grows. -/
theorem dsmlFindToolStart_grows {n : Nat} {style : DsmlStyle} (h : dsmlFindToolStart s = some (n, style)) (ext : Bytes) :
    dsmlFindToolStart (s ++ ext) = some (n, style) := by
  obtain ⟨hat, hbefore⟩ := dsmlFindToolStart_some h
  have hlen : (startTag style).length ≤ (s.drop n).length := startsWith_length hat
  obtain ⟨l, hl, -⟩ := startTag_shape style
  have hn : n + (startTag style).length ≤ s.length := by
    rw [List.length_drop] at hlen
    rw [hl, List.length_cons] at hlen ⊢
    omega
  have hat' : startsWith (startTag style) ((s ++ ext).drop n) = true := by
    rw [List.drop_append_of_le_length (by omega)]
    exact startsWith_more hat ext
  refine dsmlFindToolStart_eq hat' fun st i hi => ?_
  rw [Bool.eq_false_iff]
  intro hst
  have := markers_apart hst hat' hi
  exact absurd (startsWith_fits hst (by omega)) (by rw [hbefore st i hi]; simp)

theorem findFrom_grows {raw : Bytes} {p q : Nat} {style : DsmlStyle} (h : dsmlFindToolStartFrom raw p = some (q, style))
    (ext : Bytes) : dsmlFindToolStartFrom (raw ++ ext) p = some (q, style) := by
  unfold dsmlFindToolStartFrom at h ⊢
  split at h
  next => cases h
  next hle =>
    rw [if_neg (by rw [List.length_append]; omega), List.drop_append_of_le_length (by omega)]
    split at h
    next => cases h
    next n st hf =>
      rw [dsmlFindToolStart_grows hf ext]
      exact h

/-- What was searched in vain, but for the longest marker's length, need not be searched again. -/
theorem findFrom_hold {raw : Bytes} {p : Nat} (h : dsmlFindToolStartFrom raw p = none)
    (hp : p ≤ raw.length - dsmlMaxToolStartLen) (ext : Bytes) :
    dsmlFindToolStartFrom (raw ++ ext) (raw.length - dsmlMaxToolStartLen) = dsmlFindToolStartFrom (raw ++ ext) p := by
  have hle : raw.length - dsmlMaxToolStartLen ≤ raw.length := Nat.sub_le _ _
  have hno : dsmlFindToolStart (raw.drop p) = none := by
    unfold dsmlFindToolStartFrom at h
    rw [if_neg (by omega)] at h
    split at h
    next hf => exact hf
    next => cases h
  have hlen : (raw ++ ext).length = raw.length + ext.length := List.length_append
  unfold dsmlFindToolStartFrom
  rw [if_neg (by omega), if_neg (by omega)]
  cases hf : dsmlFindToolStart ((raw ++ ext).drop p) with
  | none =>
    have hf' : dsmlFindToolStart ((raw ++ ext).drop (raw.length - dsmlMaxToolStartLen)) = none := by
      cases hg : dsmlFindToolStart ((raw ++ ext).drop (raw.length - dsmlMaxToolStartLen)) with
      | none => rfl
      | some q =>
        obtain ⟨n, st⟩ := q
        have hat := (dsmlFindToolStart_some hg).1
        have hnone := dsmlFindToolStart_none hf st (raw.length - dsmlMaxToolStartLen - p + n)
        rw [List.drop_drop] at hat hnone
        rw [show p + (raw.length - dsmlMaxToolStartLen - p + n) = raw.length - dsmlMaxToolStartLen + n by omega, hat] at hnone
        cases hnone
    rw [hf']
  | some q =>
    obtain ⟨n, st⟩ := q
    obtain ⟨hat, hbefore⟩ := dsmlFindToolStart_some hf
    -- a marker that was in sight whole would have been found
    have hlate : raw.length - dsmlMaxToolStartLen ≤ p + n := by
      by_contra hlt
      have hst := startTag_le st
      have hfit : startsWith (startTag st) (raw.drop (p + n)) = true := by
        rw [List.drop_drop] at hat
        exact startsWith_fits hat (by omega)
      have hnone := dsmlFindToolStart_none hno st n
      rw [List.drop_drop, hfit] at hnone
      cases hnone
    have hf' : dsmlFindToolStart ((raw ++ ext).drop (raw.length - dsmlMaxToolStartLen)) =
        some (p + n - (raw.length - dsmlMaxToolStartLen), st) := by
      refine dsmlFindToolStart_eq ?_ fun st' i hi => ?_
      · rw [List.drop_drop] at hat ⊢
        rwa [show raw.length - dsmlMaxToolStartLen + (p + n - (raw.length - dsmlMaxToolStartLen)) = p + n by omega]
      · have := hbefore st' (raw.length - dsmlMaxToolStartLen + i - p) (by omega)
        rw [List.drop_drop] at this ⊢
        rwa [show p + (raw.length - dsmlMaxToolStartLen + i - p) = raw.length - dsmlMaxToolStartLen + i by omega] at this
    rw [hf']
    simp only [Option.some.injEq, Prod.mk.injEq, and_true]
    omega

end

/-! ## One turn on a longer text -/

section
variable {raw ext : Bytes} {dt dt' s t : DecodeTracker}

/-- Inside a parameter's value, and not inside a JSON string. -/
def InValue (dt : DecodeTracker) : Prop := dt.mode = .stringBody ∨ (dt.mode = .jsonParam ∧ dt.jsonInString = false)

instance : DecidablePred InValue := fun _ => inferInstanceAs (Decidable (_ ∨ _))

/-- The tracker has gone past a `<` at the end of the text, and a `/` comes next. -/
def TagCut (raw ext : Bytes) (dt : DecodeTracker) : Prop :=
  InValue dt ∧ dt.pos = raw.length ∧ raw.getLast? = some 60 ∧ ext.head? = some 47

instance (raw ext : Bytes) : DecidablePred (TagCut raw ext) := fun _ => inferInstanceAs (Decidable (_ ∧ _))

/-- Where the cursor may stand on a text: in it, and in a search where a marker may begin. -/
def OnText (raw : Bytes) (dt : DecodeTracker) : Prop :=
  dt.pos ≤ raw.length ∧ (dt.mode = .search → dt.pos ≤ raw.length - dsmlMaxToolStartLen)

theorem tags_paramEnd (dt : DecodeTracker) : ∃ l, dt.tags.paramEnd = 60 :: 47 :: l := by
  have h : ∀ style, (dsmlSyntax style).paramEnd = 60 :: 47 :: (dsmlSyntax style).paramEnd.tail.tail := by
    intro style
    cases style <;> decide
  exact ⟨_, h _⟩

/-- The end tag that is not in sight, whole or begun, stays so, but for a `<` at
   the very end that a `/` follows. -/
theorem no_endTag {lit rest : Bytes} {l : Bytes} (hlit : lit = 60 :: 47 :: l) (hne : rest ≠ [])
    (hfull : startsWith lit rest = false) (hpart : partialMin rest lit 2 = false)
    (hcut : ¬(rest = [60] ∧ ext.head? = some 47)) :
    startsWith lit (rest ++ ext) = false ∧ partialMin (rest ++ ext) lit 2 = false := by
  -- either of the two would have the text begin as the tag does
  have hkey : ¬(2 ≤ (rest ++ ext).length ∧ (startsWith lit (rest ++ ext) = true ∨ startsWith (rest ++ ext) lit = true)) := by
    rintro ⟨htwo, hboth⟩
    cases rest with
    | nil => exact hne rfl
    | cons c r =>
      cases r with
      | nil =>
        cases ext with
        | nil => simp at htwo
        | cons d e =>
          rw [hlit] at hboth
          rcases hboth with hb | hb
          · simp only [List.cons_append, List.nil_append, startsWith_cons_cons, Bool.and_eq_true, beq_iff_eq] at hb
            exact hcut ⟨by rw [hb.1], by rw [← hb.2.1]; rfl⟩
          · simp only [List.cons_append, List.nil_append, startsWith_cons_cons, Bool.and_eq_true, beq_iff_eq] at hb
            exact hcut ⟨by rw [hb.1], by rw [hb.2.1]; rfl⟩
      | cons d r =>
        by_cases hlong : lit.length ≤ (c :: d :: r).length
        · rcases hboth with hb | hb
          · rw [startsWith_append_long ext hlong, hfull] at hb
            cases hb
          · have heq : c :: d :: r ++ ext = lit := by
              obtain ⟨x, hx⟩ := startsWith_iff.mp hb
              have hlen := congrArg List.length hx
              rw [List.length_append, List.length_append] at hlen
              have hx0 : x = [] := List.length_eq_zero_iff.mp (by omega)
              rw [hx, hx0, List.append_nil]
            have he0 : ext = [] := by
              have hlen := congrArg List.length heq
              rw [List.length_append] at hlen
              exact List.length_eq_zero_iff.mp (by omega)
            rw [he0, List.append_nil] at heq
            rw [heq] at hfull
            have hself := startsWith_append lit []
            rw [List.append_nil, hfull] at hself
            cases hself
        · -- the part in sight is a beginning of the tag already
          have hpre : startsWith (c :: d :: r) lit = true := by
            rcases hboth with hb | hb
            · obtain ⟨x, hx⟩ := startsWith_iff.mp hb
              have h := congrArg (fun z => z.take (c :: d :: r).length) hx
              simp only [List.take_append_of_le_length (Nat.le_refl _), List.take_length,
                List.take_append_of_le_length (Nat.le_of_not_le hlong)] at h
              refine startsWith_iff.mpr ⟨lit.drop (c :: d :: r).length, ?_⟩
              calc lit = lit.take (c :: d :: r).length ++ lit.drop (c :: d :: r).length :=
                    (List.take_append_drop _ _).symm
                _ = c :: d :: r ++ lit.drop (c :: d :: r).length := by rw [← h]
            · obtain ⟨x, hx⟩ := startsWith_iff.mp hb
              exact startsWith_iff.mpr ⟨ext ++ x, by rw [hx, List.append_assoc]⟩
          simp only [partialMin, partialOf, hpre, List.length_cons, Bool.and_true, Bool.and_eq_false_iff,
            decide_eq_false_iff_not] at hpart hlong
          omega
  have htwo : 2 ≤ lit.length := by
    rw [hlit, List.length_cons, List.length_cons]
    omega
  constructor
  · rw [Bool.eq_false_iff]
    intro h
    exact hkey ⟨Nat.le_trans htwo (startsWith_length h), .inl h⟩
  · rw [Bool.eq_false_iff]
    intro h
    simp only [partialMin, partialOf, Bool.and_eq_true, decide_eq_true_eq] at h
    exact hkey ⟨h.1, .inr h.2.2⟩

/-- The tags that can follow one another inside a block. -/
def blockTag (style : DsmlStyle) : Fin 4 → Bytes
  | 0 => (dsmlSyntax style).toolCallsEnd
  | 1 => (dsmlSyntax style).invokeEnd
  | 2 => (dsmlSyntax style).invokeStart
  | 3 => (dsmlSyntax style).paramStart

/-- At most one of them stands at a place. -/
theorem tags_apart {style : DsmlStyle} {rest : Bytes} {i : Fin 4} (h : startsWith (blockTag style i) rest = true)
    {j : Fin 4} (hne : i ≠ j) : startsWith (blockTag style j) rest = false := by
  have hall : ∀ style i j, i ≠ j → ¬blockTag style i <+: blockTag style j := by
    intro style
    cases style <;> decide
  rw [Bool.eq_false_iff]
  intro h'
  rcases List.prefix_or_prefix_of_prefix (List.isPrefixOf_iff_prefix.mp h) (List.isPrefixOf_iff_prefix.mp h') with hp | hp
  · exact hall style i j hne hp
  · exact hall style j i (Ne.symm hne) hp

theorem tag_notBlank {style : DsmlStyle} {i : Fin 4} {c : UInt8} {rest : Bytes}
    (h : startsWith (blockTag style i) (c :: rest) = true) : isSpace c = false := by
  have hall : ∀ style i, (blockTag style i).head? = some 60 := by
    intro style
    cases style <;> decide
  cases ht : blockTag style i with
  | nil =>
    have := hall style i
    rw [ht] at this
    cases this
  | cons d l =>
    have hd := hall style i
    rw [ht] at hd h
    rw [startsWith_cons_cons, Bool.and_eq_true, beq_iff_eq] at h
    rw [← h.1, Option.some.inj hd]
    decide

/-- The tracker after a parameter's tag. -/
def enterParam (dt : DecodeTracker) (tag : Bytes) : DecodeTracker :=
  if dsmlAttrIsStringTrue tag then
    { dt with pos := dt.pos + tag.length, mode := .stringBody, decode := .stringBody }
  else
    { dt with
      pos := dt.pos + tag.length
      mode := .jsonParam
      jsonInString := false
      jsonEscaped := false
      decode := .jsonStructural }

/-- The ways on between the tags. -/
inductive BetweenTags (dt : DecodeTracker) : Bytes → DecodeTracker → Prop
  | blank {c : UInt8} {rest : Bytes} (h : isSpace c = true) : BetweenTags dt (c :: rest) { dt with pos := dt.pos + 1 }
  | invokeEnd {rest : Bytes} (h : startsWith dt.tags.invokeEnd rest = true) :
      BetweenTags dt rest { dt with pos := dt.pos + dt.tags.invokeEnd.length }
  | invoke {rest tag v : Bytes} (h : startsWith dt.tags.invokeStart rest = true) (ht : splitTag rest = some (tag, v)) :
      BetweenTags dt rest { dt with pos := dt.pos + tag.length }
  | param {rest tag v : Bytes} (h : startsWith dt.tags.paramStart rest = true) (ht : splitTag rest = some (tag, v)) :
      BetweenTags dt rest (enterParam dt tag)

theorem trackStructural_iff : trackStructural raw dt = .goOn dt' ↔ BetweenTags dt (raw.drop dt.pos) dt' := by
  unfold trackStructural
  cases hrest : raw.drop dt.pos with
  | nil =>
    refine ⟨fun h => absurd h (by simp), fun h => ?_⟩
    have hnone : splitTag [] = none := rfl
    generalize hnil : ([] : Bytes) = rest at h
    cases h with
    | blank => cases hnil
    | invokeEnd h =>
      have hlen := startsWith_length h
      rw [← hnil] at hlen
      have hpos : ∀ style, 0 < (dsmlSyntax style).invokeEnd.length := by
        intro style
        cases style <;> decide
      exact absurd hlen (Nat.not_le.mpr (hpos _))
    | invoke _ ht =>
      rw [← hnil, hnone] at ht
      cases ht
    | param _ ht =>
      rw [← hnil, hnone] at ht
      cases ht
  | cons c rest =>
    simp only []
    constructor
    · intro h
      split at h
      next hsp =>
        cases h
        exact .blank hsp
      next =>
        split at h
        next => cases h
        next =>
          split at h
          next hie =>
            cases h
            exact .invokeEnd hie
          next =>
            split at h
            next his =>
              split at h
              next => cases h
              next ht =>
                cases h
                exact .invoke his ht
            next =>
              split at h
              next hps =>
                split at h
                next => cases h
                next tag _ ht =>
                  have hent : enterParam dt tag = dt' := by
                    unfold enterParam
                    split at h
                    next hs =>
                      rw [if_pos hs]
                      exact Turn.goOn.inj h
                    next hs =>
                      rw [if_neg hs]
                      exact Turn.goOn.inj h
                  rw [← hent]
                  exact .param hps ht
              next => cases h
    · intro h
      cases h with
      | blank hsp => rw [if_pos hsp]
      | invokeEnd hie =>
        have h0 : startsWith dt.tags.toolCallsEnd (c :: rest) = false := tags_apart (i := 1) (j := 0) hie (by decide)
        rw [tag_notBlank (i := 1) hie, h0, if_neg Bool.false_ne_true, if_neg Bool.false_ne_true, if_pos hie]
      | invoke his ht =>
        have h0 : startsWith dt.tags.toolCallsEnd (c :: rest) = false := tags_apart (i := 2) (j := 0) his (by decide)
        have h1 : startsWith dt.tags.invokeEnd (c :: rest) = false := tags_apart (i := 2) (j := 1) his (by decide)
        rw [tag_notBlank (i := 2) his, h0, h1, if_neg Bool.false_ne_true, if_neg Bool.false_ne_true,
          if_neg Bool.false_ne_true, if_pos his, ht]
      | param hps ht =>
        have h0 : startsWith dt.tags.toolCallsEnd (c :: rest) = false := tags_apart (i := 3) (j := 0) hps (by decide)
        have h1 : startsWith dt.tags.invokeEnd (c :: rest) = false := tags_apart (i := 3) (j := 1) hps (by decide)
        have h2 : startsWith dt.tags.invokeStart (c :: rest) = false := tags_apart (i := 3) (j := 2) hps (by decide)
        rw [tag_notBlank (i := 3) hps, h0, h1, h2, if_neg Bool.false_ne_true, if_neg Bool.false_ne_true,
          if_neg Bool.false_ne_true, if_neg Bool.false_ne_true, if_pos hps, ht]
        simp only []
        unfold enterParam
        split
        next => rfl
        next => rfl

theorem splitTag_more {rest tag v : Bytes} (h : splitTag rest = some (tag, v)) (ext : Bytes) :
    splitTag (rest ++ ext) = some (tag, v ++ ext) := by
  obtain ⟨⟨a, r⟩, hr, he⟩ := Option.map_eq_some_iff.mp h
  cases he
  rw [splitTag, strchr, strstr_seen ext hr, Option.map_some]
  obtain ⟨x, hx⟩ := startsWith_iff.mp (strstr_sound hr).2
  rw [hx]
  rfl

theorem BetweenTags.grows {rest : Bytes} (h : BetweenTags dt rest dt') (ext : Bytes) : BetweenTags dt (rest ++ ext) dt' := by
  cases h with
  | blank h => exact .blank h
  | invokeEnd h => exact .invokeEnd (startsWith_more h ext)
  | invoke h ht => exact .invoke (startsWith_more h ext) (splitTag_more ht ext)
  | param h ht => exact .param (startsWith_more h ext) (splitTag_more ht ext)

theorem drop_grows (h : dt.pos ≤ raw.length) : (raw ++ ext).drop dt.pos = raw.drop dt.pos ++ ext :=
  List.drop_append_of_le_length h

/-- A turn that goes on does the same on a longer text, but for the cut tag. -/
theorem turn_grows (ext : Bytes) (hon : OnText raw dt) (h : trackTurn raw dt = .goOn dt') :
    trackTurn (raw ++ ext) dt = .goOn dt' ∨
      (InValue dt ∧ raw.drop dt.pos = [60] ∧ ext.head? = some 47 ∧ dt' = { dt with pos := dt.pos + 1 }) := by
  obtain ⟨hpos, hsearch⟩ := hon
  obtain ⟨l, hl⟩ := tags_paramEnd dt
  unfold trackTurn at h ⊢
  cases hmode : dt.mode with
  | done => simp [hmode] at h
  | search =>
    simp only [hmode, trackSearch] at h ⊢
    split at h
    next => cases h
    next p st hf =>
      rw [findFrom_grows hf ext]
      exact .inl h
  | stringBody =>
    simp only [hmode, trackStringBody] at h ⊢
    rw [drop_grows hpos]
    cases hrest : raw.drop dt.pos with
    | nil => simp [hrest] at h
    | cons c rest =>
      simp only [hrest] at h
      rw [List.cons_append]
      split at h
      next hfull =>
        have hfull' : startsWith dt.tags.paramEnd (c :: (rest ++ ext)) = true := startsWith_more hfull ext
        simp only [hfull', if_true]
        exact .inl h
      next hfull =>
        split at h
        next => cases h
        next hpart =>
          by_cases hcut : c :: rest = [60] ∧ ext.head? = some 47
          · cases h
            exact .inr ⟨.inl hmode, hcut.1, hcut.2, rfl⟩
          · obtain ⟨hf, hp⟩ := no_endTag hl (by simp) (by simpa using hfull) (by simpa using hpart) hcut
            simp only [List.cons_append] at hf hp
            simp only [hf, hp, Bool.false_eq_true, if_false]
            exact .inl h
  | jsonParam =>
    simp only [hmode, trackJsonParam] at h ⊢
    rw [drop_grows hpos]
    cases hrest : raw.drop dt.pos with
    | nil => simp [hrest] at h
    | cons c rest =>
      simp only [hrest] at h
      rw [List.cons_append]
      cases hin : dt.jsonInString with
      | true =>
        simp only [hin, Bool.not_true, Bool.false_and, Bool.false_eq_true, if_false] at h ⊢
        exact .inl h
      | false =>
        simp only [hin, Bool.not_false, Bool.true_and] at h ⊢
        split at h
        next hfull =>
          have hfull' : startsWith dt.tags.paramEnd (c :: (rest ++ ext)) = true := startsWith_more hfull ext
          simp only [hfull', if_true]
          exact .inl h
        next hfull =>
          split at h
          next => cases h
          next hpart =>
            by_cases hcut : c :: rest = [60] ∧ ext.head? = some 47
            · refine .inr ⟨.inr ⟨hmode, hin⟩, hcut.1, hcut.2, ?_⟩
              have hc : c = 60 := (List.cons.inj hcut.1).1
              cases h
              simp [jsonByte, hc]
            · obtain ⟨hf, hp⟩ := no_endTag hl (by simp) (by simpa using hfull) (by simpa using hpart) hcut
              simp only [List.cons_append] at hf hp
              simp only [hf, hp, Bool.false_eq_true, if_false]
              exact .inl h
  | structural =>
    left
    simp only [hmode] at h ⊢
    rw [trackStructural_iff] at h ⊢
    rw [drop_grows hpos]
    exact h.grows ext

/-! ## Runs of turns -/

/-- A turn that goes on moves the cursor on, within the text. -/
theorem turn_pos (h : trackTurn raw dt = .goOn dt') :
    dt.pos < dt'.pos ∧ dt'.pos ≤ raw.length ∧ dt'.mode ≠ .search := by
  have hlong : ∀ {lit}, startsWith lit (raw.drop dt.pos) = true → 0 < lit.length → dt.pos + lit.length ≤ raw.length := by
    intro lit hs hlit
    have := startsWith_length hs
    rw [List.length_drop] at this
    omega
  have hcons : ∀ {c rest}, raw.drop dt.pos = c :: rest → dt.pos < raw.length := by
    intro c rest hd
    have := congrArg List.length hd
    rw [List.length_drop, List.length_cons] at this
    omega
  obtain ⟨l, hl⟩ := tags_paramEnd dt
  have hend : 0 < dt.tags.paramEnd.length := by
    rw [hl, List.length_cons]
    omega
  unfold trackTurn at h
  cases hmode : dt.mode with
  | done => simp [hmode] at h
  | search =>
    simp only [hmode, trackSearch] at h
    split at h
    next => cases h
    next q st hf =>
      cases h
      unfold dsmlFindToolStartFrom at hf
      split at hf
      next => cases hf
      next hle =>
        split at hf
        next => cases hf
        next n _ hn =>
          cases hf
          have hat := startsWith_length (dsmlFindToolStart_some hn).1
          obtain ⟨k, hk, -⟩ := startTag_shape st
          rw [List.length_drop, List.length_drop] at hat
          have hk' : (startTag st).length = k.length + 1 := by rw [hk, List.length_cons]
          refine ⟨?_, ?_, by simp⟩
          · change dt.pos < dt.pos + (n + (startTag st).length)
            omega
          · change dt.pos + (n + (startTag st).length) ≤ raw.length
            omega
  | stringBody =>
    simp only [hmode, trackStringBody] at h
    cases hrest : raw.drop dt.pos with
    | nil => simp [hrest] at h
    | cons c rest =>
      simp only [hrest] at h
      have hlt := hcons hrest
      split at h
      next hfull =>
        cases h
        rw [← hrest] at hfull
        have := hlong hfull hend
        simp only [ne_eq, reduceCtorEq, not_false_eq_true, and_true]
        omega
      next =>
        split at h
        next => cases h
        next =>
          cases h
          refine ⟨Nat.lt_succ_self _, hlt, ?_⟩
          simp
  | jsonParam =>
    simp only [hmode, trackJsonParam] at h
    cases hrest : raw.drop dt.pos with
    | nil => simp [hrest] at h
    | cons c rest =>
      simp only [hrest] at h
      have hlt := hcons hrest
      split at h
      next hfull =>
        cases h
        rw [Bool.and_eq_true, ← hrest] at hfull
        have := hlong hfull.2 hend
        simp only [ne_eq, reduceCtorEq, not_false_eq_true, and_true]
        omega
      next =>
        split at h
        next => cases h
        next =>
          cases h
          have hjson : ∀ d : DecodeTracker, (jsonByte c d).pos = d.pos ∧ (jsonByte c d).mode = d.mode := by
            intro d
            unfold jsonByte
            repeat' split
            all_goals exact ⟨rfl, rfl⟩
          rw [(hjson _).1, (hjson _).2]
          exact ⟨Nat.lt_succ_self _, hlt, by simp⟩
  | structural =>
    simp only [hmode] at h
    rw [trackStructural_iff] at h
    have htag : ∀ {tag v}, splitTag (raw.drop dt.pos) = some (tag, v) →
        dt.pos < dt.pos + tag.length ∧ dt.pos + tag.length ≤ raw.length := by
      intro tag v ht
      obtain ⟨⟨a, r⟩, hr, he⟩ := Option.map_eq_some_iff.mp ht
      cases he
      obtain ⟨hs, hat⟩ := strstr_sound hr
      have h1 := startsWith_length hat
      have h2 := congrArg List.length hs
      rw [List.length_drop, List.length_append] at h2
      simp only [List.length_append, List.length_cons, List.length_nil] at h1 ⊢
      omega
    generalize hrest : raw.drop dt.pos = rest at h
    cases h with
    | blank hsp => exact ⟨Nat.lt_succ_self _, hcons hrest, by rw [hmode]; simp⟩
    | invokeEnd hie =>
      have hpos : ∀ style, 0 < (dsmlSyntax style).invokeEnd.length := by
        intro style
        cases style <;> decide
      rw [← hrest] at hie
      have h1 := hlong hie (hpos _)
      have h2 : 0 < dt.tags.invokeEnd.length := hpos _
      exact ⟨by change dt.pos < dt.pos + _; omega, h1, by rw [hmode]; simp⟩
    | invoke _ ht =>
      rw [← hrest] at ht
      exact ⟨(htag ht).1, (htag ht).2, by rw [hmode]; simp⟩
    | param _ ht =>
      rw [← hrest] at ht
      unfold enterParam
      split
      next => exact ⟨(htag ht).1, (htag ht).2, by simp⟩
      next => exact ⟨(htag ht).1, (htag ht).2, by simp⟩

theorem update_settles (raw : Bytes) (dt : DecodeTracker) : Settles (trackTurn raw) dt (dsmlDecodeTrackerUpdate raw dt) := by
  refine settles_loop (fun dt => raw.length - dt.pos) (fun dt dt' h => ?_) (by omega)
  have := turn_pos h
  omega

theorem OnText.goOn (h : trackTurn raw dt = .goOn dt') : OnText raw dt' := by
  obtain ⟨-, hle, hmode⟩ := turn_pos h
  exact ⟨hle, fun hs => absurd hs hmode⟩

/-- The ways to stop. -/
theorem turn_stop (h : trackTurn raw dt = .stop s) :
    (dt.mode = .search ∧ dsmlFindToolStartFrom raw dt.pos = none ∧
      s = { dt with pos := raw.length - dsmlMaxToolStartLen, decode := .outside }) ∨
    (s.mode = .done ∧ s.decode = .outside ∧ ∀ ext, trackTurn (raw ++ ext) dt = .stop s) ∨
    ∃ d, s = { dt with decode := d } := by
  unfold trackTurn at h
  cases hmode : dt.mode with
  | done =>
    simp only [hmode] at h
    cases h
    exact .inr (.inr ⟨_, rfl⟩)
  | search =>
    simp only [hmode, trackSearch] at h
    split at h
    next hf =>
      cases h
      exact .inl ⟨rfl, hf, rfl⟩
    next => cases h
  | stringBody =>
    simp only [hmode, trackStringBody] at h
    repeat' split at h
    all_goals cases h
    all_goals exact .inr (.inr ⟨_, rfl⟩)
  | jsonParam =>
    simp only [hmode, trackJsonParam] at h
    repeat' split at h
    all_goals cases h
    all_goals exact .inr (.inr ⟨_, rfl⟩)
  | structural =>
    simp only [hmode, trackStructural] at h
    split at h
    next =>
      cases h
      exact .inr (.inr ⟨_, rfl⟩)
    next c rest hrest =>
      split at h
      next => cases h
      next hsp =>
        split at h
        next hte =>
          cases h
          refine .inr (.inl ⟨rfl, rfl, fun ext => ?_⟩)
          have hle : dt.pos ≤ raw.length := by
            have := congrArg List.length hrest
            rw [List.length_drop, List.length_cons] at this
            omega
          have hte' : startsWith dt.tags.toolCallsEnd (c :: (rest ++ ext)) = true := startsWith_more hte ext
          simp only [trackTurn, hmode, trackStructural, drop_grows hle, hrest, List.cons_append, hsp, hte',
            Bool.false_eq_true, if_true, if_false]
        next =>
          repeat' split at h
          all_goals cases h
          all_goals exact .inr (.inr ⟨_, rfl⟩)

/-! ## Going on with a longer text -/

/-- Two turns that stop alike, or go on alike but for `decode`. -/
def SameTurn : Turn DecodeTracker → Turn DecodeTracker → Prop
  | .stop s, .stop t => s = t
  | .goOn s, .goOn t => t = { s with decode := t.decode }
  | _, _ => False

theorem sameTurn_ite {c : Prop} [Decidable c] {a a' b b' : Turn DecodeTracker} (h : SameTurn a a') (h' : SameTurn b b') :
    SameTurn (if c then a else b) (if c then a' else b') := by
  split
  next => exact h
  next => exact h'

/-- No turn reads `decode`, and every stop sets it. -/
theorem turn_decode (raw : Bytes) (dt : DecodeTracker) (d : DecodeState) :
    SameTurn (trackTurn raw dt) (trackTurn raw { dt with decode := d }) := by
  obtain ⟨mode, decode, syn, pos, inString, escaped⟩ := dt
  cases mode with
  | done => rfl
  | search =>
    simp only [trackTurn, trackSearch]
    cases dsmlFindToolStartFrom raw pos with
    | none => rfl
    | some q => rfl
  | stringBody =>
    simp only [trackTurn, trackStringBody, DecodeTracker.tags]
    cases raw.drop pos with
    | nil => rfl
    | cons c rest => exact sameTurn_ite rfl (sameTurn_ite rfl rfl)
  | jsonParam =>
    have hbyte : ∀ c (x : DecodeTracker), jsonByte c { x with decode := d } = { jsonByte c x with decode := d } := by
      intro c x
      unfold jsonByte
      split_ifs <;> rfl
    simp only [trackTurn, trackJsonParam, DecodeTracker.tags]
    cases raw.drop pos with
    | nil => rfl
    | cons c rest =>
      refine sameTurn_ite rfl (sameTurn_ite rfl ?_)
      have hb := hbyte c ⟨.jsonParam, decode, syn, pos + 1, inString, escaped⟩
      simp only [SameTurn, hb]
  | structural =>
    simp only [trackTurn, trackStructural, DecodeTracker.tags]
    cases raw.drop pos with
    | nil => rfl
    | cons c rest =>
      refine sameTurn_ite rfl (sameTurn_ite rfl (sameTurn_ite rfl (sameTurn_ite ?_ (sameTurn_ite ?_ rfl))))
      · cases splitTag (c :: rest) with
        | none => rfl
        | some q => rfl
      · cases splitTag (c :: rest) with
        | none => rfl
        | some q => exact sameTurn_ite rfl rfl

theorem settles_decode (h : Settles (trackTurn raw) dt t) (d : DecodeState) :
    Settles (trackTurn raw) { dt with decode := d } t := by
  induction h generalizing d with
  | @stop s t hs =>
    have hsame := turn_decode raw s d
    rw [hs] at hsame
    cases hs' : trackTurn raw { s with decode := d } with
    | stop t' =>
      rw [hs'] at hsame
      exact hsame ▸ .stop hs'
    | goOn t' =>
      rw [hs'] at hsame
      exact hsame.elim
  | @goOn s s' t hs _ ih =>
    have hsame := turn_decode raw s d
    rw [hs] at hsame
    cases hs' : trackTurn raw { s with decode := d } with
    | stop t' =>
      rw [hs'] at hsame
      exact hsame.elim
    | goOn t' =>
      rw [hs'] at hsame
      have heq : t' = { s' with decode := t'.decode } := hsame
      refine .goOn hs' ?_
      rw [heq]
      exact ih _

/-- At the end of the text a value stops where it is. -/
theorem settles_end (hval : InValue dt) (hend : dt.pos = raw.length) (h : Settles (trackTurn raw) dt s) :
    ∃ d, s = { dt with decode := d } := by
  have hnil : raw.drop dt.pos = [] := by rw [hend, List.drop_length]
  have hturn : ∃ d, trackTurn raw dt = .stop { dt with decode := d } := by
    unfold trackTurn
    rcases hval with hmode | ⟨hmode, -⟩
    · exact ⟨.stringBody, by simp only [hmode, trackStringBody, hnil]⟩
    · exact ⟨_, by simp only [hmode, trackJsonParam, hnil]; rfl⟩
  obtain ⟨d, hd⟩ := hturn
  exact ⟨d, (Settles.stop hd).unique h ▸ rfl⟩

/-- What stops on a text and goes on with a longer one ends where one pass over the
   longer one does, unless a tag was cut. -/
theorem settles_resume (hon : OnText raw dt) (h : Settles (trackTurn raw) dt s) (hcut : ¬TagCut raw ext s)
    (ht : Settles (trackTurn (raw ++ ext)) s t) : Settles (trackTurn (raw ++ ext)) dt t := by
  induction h with
  | @stop dt s hs =>
    rcases turn_stop hs with ⟨hmode, hnone, rfl⟩ | ⟨hmode, hdec, hmore⟩ | ⟨d, rfl⟩
    · -- the search starts again at the held back place, and finds the same
      have hsame := findFrom_hold hnone (hon.2 hmode) ext
      refine ht.of_turn ?_
      simp only [trackTurn, hmode, trackSearch, hsame]
    · have hdone : trackTurn (raw ++ ext) s = .stop { s with decode := .outside } := by
        rw [trackTurn, hmode]
      have hts := (Settles.stop hdone).unique ht
      rw [← hdec] at hts
      rw [← hts]
      exact .stop (hmore ext)
    · exact settles_decode ht dt.decode
  | @goOn dt dt' s hs hrest ih =>
    rcases turn_grows ext hon hs with hgo | ⟨hval, hlone, hslash, rfl⟩
    · exact .goOn hgo (ih (OnText.goOn hs) hcut ht)
    · -- the one byte left was a `<`, and the tracker went past it
      have hlen := congrArg List.length hlone
      rw [List.length_drop, List.length_singleton] at hlen
      have hend : dt.pos + 1 = raw.length := by omega
      have hmoved : InValue { dt with pos := dt.pos + 1 } := hval
      obtain ⟨d, rfl⟩ := settles_end hmoved hend hrest
      have hlast := List.getLast?_drop (l := raw) (i := dt.pos)
      rw [hlone, if_neg (by omega)] at hlast
      exact absurd ⟨hval, hend, hlast.symm, hslash⟩ hcut

/-! ## The cut tag -/

/-- The last turn before a cut tag went past a single `<`. -/
theorem turn_last (h : trackTurn raw dt = .goOn dt') (hval : InValue dt') (hend : dt'.pos = raw.length)
    (hlast : raw.getLast? = some 60) : InValue dt ∧ raw.drop dt.pos = [60] := by
  have hone : ∀ {c rest}, raw.drop dt.pos = c :: rest → dt.pos + 1 = raw.length → raw.drop dt.pos = [60] := by
    intro c rest hd hlen
    have h := List.getLast?_drop (l := raw) (i := dt.pos)
    have hr : rest = [] := by
      have := congrArg List.length hd
      rw [List.length_drop, List.length_cons] at this
      exact List.length_eq_zero_iff.mp (by omega)
    rw [hd, hr, if_neg (by omega), hlast] at h
    have hc : c = 60 := Option.some.inj h
    rw [hd, hr, hc]
  unfold trackTurn at h
  cases hmode : dt.mode with
  | done => simp [hmode] at h
  | search =>
    simp only [hmode, trackSearch] at h
    split at h
    next => cases h
    next =>
      cases h
      rcases hval with hv | ⟨hv, -⟩ <;> cases hv
  | stringBody =>
    simp only [hmode, trackStringBody] at h
    cases hrest : raw.drop dt.pos with
    | nil => simp [hrest] at h
    | cons c rest =>
      simp only [hrest] at h
      split at h
      next =>
        cases h
        rcases hval with hv | ⟨hv, -⟩ <;> cases hv
      next =>
        split at h
        next => cases h
        next =>
          cases h
          rw [← hrest]
          exact ⟨.inl hmode, hone hrest hend⟩
  | jsonParam =>
    simp only [hmode, trackJsonParam] at h
    cases hrest : raw.drop dt.pos with
    | nil => simp [hrest] at h
    | cons c rest =>
      simp only [hrest] at h
      split at h
      next =>
        cases h
        rcases hval with hv | ⟨hv, -⟩ <;> cases hv
      next =>
        split at h
        next => cases h
        next =>
          cases h
          have hfix : ∀ d : DecodeTracker, (jsonByte c d).pos = d.pos ∧ (jsonByte c d).mode = d.mode := by
            intro d
            unfold jsonByte
            split_ifs <;> exact ⟨rfl, rfl⟩
          rw [(hfix _).1] at hend
          have hc := hone hrest hend
          -- a `<` inside a string would have left the tracker in the string
          have hin : dt.jsonInString = false := by
            rcases hval with hv | ⟨-, hv⟩
            · rw [(hfix _).2] at hv
              cases hv
            · by_contra hins
              rw [Bool.not_eq_false] at hins
              have h60 : c = 60 := by
                rw [hrest] at hc
                exact (List.cons.inj hc).1
              simp only [jsonByte, h60, hins, if_true] at hv
              split at hv
              next => simp at hv
              next => simp at hv
          rw [← hrest]
          exact ⟨.inr ⟨hmode, hin⟩, hc⟩
  | structural =>
    simp only [hmode] at h
    rw [trackStructural_iff] at h
    generalize hrest : raw.drop dt.pos = rest at h
    have hno : ¬(dt.mode = .stringBody ∨ (dt.mode = .jsonParam ∧ dt.jsonInString = false)) := by
      rw [hmode]
      simp
    cases h with
    | blank => exact absurd hval hno
    | invokeEnd => exact absurd hval hno
    | invoke => exact absurd hval hno
    | param _ ht =>
      -- the text would end with the bracket of the parameter's tag
      obtain ⟨⟨a, r⟩, hr, he⟩ := Option.map_eq_some_iff.mp ht
      cases he
      obtain ⟨hs, hat⟩ := strstr_sound hr
      obtain ⟨x, hx⟩ := startsWith_iff.mp hat
      have hpos : dt.pos + (a ++ [62]).length = raw.length := by
        unfold enterParam at hend
        split at hend <;> exact hend
      have hx0 : x = [] := by
        have := congrArg List.length hrest
        rw [hs, hx, List.length_drop, List.length_append, List.length_append] at this
        rw [List.length_append] at hpos
        exact List.length_eq_zero_iff.mp (by omega)
      have h62 := List.getLast?_drop (l := raw) (i := dt.pos)
      rw [hrest, hs, hx, hx0, List.append_nil, if_neg (by rw [List.length_append, List.length_singleton] at hpos; omega),
        hlast, List.getLast?_concat] at h62
      cases h62

/-- One pass over the text and the `/` stops at the `<` that a cut goes past. -/
theorem settles_cut (hon : OnText raw dt) (h : Settles (trackTurn raw) dt s) (hcut : TagCut raw [47] s)
    (hopen : ¬(InValue dt ∧ dt.pos = raw.length)) :
    ∃ t, Settles (trackTurn (raw ++ [47])) dt t ∧ t.pos + 1 = raw.length := by
  induction h with
  | @stop dt s hs =>
    exfalso
    obtain ⟨hval, hend, -, -⟩ := hcut
    rcases turn_stop hs with ⟨hmode, -, rfl⟩ | ⟨hmode, -, -⟩ | ⟨d, rfl⟩
    · rcases hval with hv | ⟨hv, -⟩ <;> rw [hmode] at hv <;> cases hv
    · rcases hval with hv | ⟨hv, -⟩ <;> rw [hmode] at hv <;> cases hv
    · exact hopen ⟨hval, hend⟩
  | @goOn dt dt' s hs hrest ih =>
    by_cases hlast : InValue dt' ∧ dt'.pos = raw.length
    · obtain ⟨hval, hlone⟩ := turn_last hs hlast.1 hlast.2 hcut.2.2.1
      have hlen := congrArg List.length hlone
      rw [List.length_drop, List.length_singleton] at hlen
      have hdrop : (raw ++ [47]).drop dt.pos = [60, 47] := by rw [drop_grows hon.1, hlone]; rfl
      obtain ⟨l, hl⟩ := tags_paramEnd dt
      have hlong : ∀ style, 3 ≤ (dsmlSyntax style).paramEnd.length := by
        intro style
        cases style <;> decide
      have h3 : 3 ≤ dt.tags.paramEnd.length := hlong _
      have hfull : startsWith dt.tags.paramEnd [60, 47] = false := by
        rw [Bool.eq_false_iff]
        intro hf
        have := startsWith_length hf
        simp only [List.length_cons, List.length_nil] at this
        omega
      have hpart : partialMin [60, 47] dt.tags.paramEnd 2 = true := by
        rw [hl, List.length_cons, List.length_cons] at h3
        rw [hl]
        simp only [partialMin, partialOf, List.length_cons, List.length_nil, startsWith_cons_cons, startsWith_nil,
          beq_self_eq_true, Bool.and_true, decide_eq_true_eq, ge_iff_le, Nat.le_refl, decide_true, Bool.true_and]
        omega
      refine ⟨{ dt with decode := .structural }, .stop ?_, by change dt.pos + 1 = _; omega⟩
      unfold trackTurn
      rcases hval with hmode | ⟨hmode, hin⟩
      · simp only [hmode, trackStringBody, hdrop, hfull, hpart, Bool.false_eq_true, if_false, if_true]
      · simp only [hmode, trackJsonParam, hdrop, hfull, hpart, hin, Bool.not_false, Bool.true_and, Bool.false_eq_true,
          if_false, if_true]
    · rcases turn_grows [47] hon hs with hgo | ⟨hval, hlone, -, rfl⟩
      · obtain ⟨t, ht, hpos⟩ := ih (OnText.goOn hs) hcut hlast
        exact ⟨t, .goOn hgo ht, hpos⟩
      · have hlen := congrArg List.length hlone
        rw [List.length_drop, List.length_singleton] at hlen
        exact absurd ⟨hval, by change dt.pos + 1 = _; omega⟩ hlast

/-- Once a block is found the cursor does not go back. -/
theorem settles_pos (h : Settles (trackTurn raw) s t) (hmode : s.mode ≠ .search) : s.pos ≤ t.pos := by
  induction h with
  | @stop s t hs =>
    rcases turn_stop hs with ⟨hm, -, -⟩ | ⟨-, -, hmore⟩ | ⟨d, rfl⟩
    · exact absurd hm hmode
    · have hs' := hs
      unfold trackTurn at hs'
      cases hm : s.mode with
      | done =>
        simp only [hm] at hs'
        cases hs'
        exact Nat.le_refl _
      | search => exact absurd hm hmode
      | stringBody =>
        simp only [hm, trackStringBody] at hs'
        repeat' split at hs'
        all_goals cases hs'
        all_goals exact Nat.le_refl _
      | jsonParam =>
        simp only [hm, trackJsonParam] at hs'
        repeat' split at hs'
        all_goals cases hs'
        all_goals exact Nat.le_refl _
      | structural =>
        simp only [hm, trackStructural] at hs'
        repeat' split at hs'
        all_goals cases hs'
        all_goals first | exact Nat.le_refl _ | exact Nat.le_add_right _ _
    · exact Nat.le_refl _
  | goOn hs _ ih =>
    obtain ⟨hlt, -, hm⟩ := turn_pos hs
    exact Nat.le_trans (Nat.le_of_lt hlt) (ih hm)

end

/-! ## Pieces -/

/-- The text so far and the tracker after it. -/
structure Tracked where
  text : Bytes
  tracker : DecodeTracker
  deriving DecidableEq

/-- One more piece of text, and the update on all of it. -/
def track (st : Tracked) (piece : Bytes) : Tracked :=
  { text := st.text ++ piece, tracker := dsmlDecodeTrackerUpdate (st.text ++ piece) st.tracker }

def trackStart : Tracked := { text := [], tracker := dsmlDecodeTrackerInit }

/-- The tracker after one update on the whole text. -/
def oneUpdate (text : Bytes) : DecodeTracker := dsmlDecodeTrackerUpdate text dsmlDecodeTrackerInit

/-- The tracker is where one update leaves it, after every piece, and after what
   there is of a piece when it comes cut short. -/
def SplitFree (pieces : List Bytes) : Prop :=
  ∀ before piece after part, pieces = before ++ piece :: after → part <+: piece →
    (run track trackStart (before ++ [part])).tracker = oneUpdate (before ++ [part]).flatten

theorem run_text (pieces : List Bytes) : (run track trackStart pieces).text = pieces.flatten := by
  induction pieces using List.reverseRecOn with
  | nil => rfl
  | append_singleton pieces piece ih =>
    rw [run_concat, List.flatten_append, List.flatten_singleton, ← ih]
    rfl

theorem onText_init (raw : Bytes) : OnText raw dsmlDecodeTrackerInit := ⟨Nat.zero_le _, fun _ => Nat.zero_le _⟩

/-- A piece that cuts no tag leaves the tracker where one update does. -/
theorem track_oneUpdate {st : Tracked} {piece : Bytes} (h : st.tracker = oneUpdate st.text)
    (hcut : ¬TagCut st.text piece st.tracker) : (track st piece).tracker = oneUpdate (track st piece).text := by
  have hold := update_settles st.text dsmlDecodeTrackerInit
  change Settles _ _ (oneUpdate st.text) at hold
  rw [← h] at hold
  have hnew := settles_resume (onText_init st.text) hold hcut (update_settles (st.text ++ piece) st.tracker)
  exact hnew.unique (update_settles (st.text ++ piece) dsmlDecodeTrackerInit)

theorem trackStart_oneUpdate : trackStart.tracker = oneUpdate trackStart.text := by decide

theorem run_oneUpdate {pieces : List Bytes}
    (h : Admitted track (fun st piece => ¬TagCut st.text piece st.tracker) trackStart pieces) :
    (run track trackStart pieces).tracker = oneUpdate (run track trackStart pieces).text :=
  Admitted.invariant (I := fun st => st.tracker = oneUpdate st.text) (fun _ _ hst hg => track_oneUpdate hst hg)
    trackStart_oneUpdate h

/-- A part of a piece that cuts no tag cuts none. -/
theorem tagCut_part {raw piece part : Bytes} {dt : DecodeTracker} (hpart : part <+: piece) (h : TagCut raw part dt) :
    TagCut raw piece dt := by
  obtain ⟨hval, hend, hlast, hslash⟩ := h
  obtain ⟨rest, rfl⟩ := hpart
  refine ⟨hval, hend, hlast, ?_⟩
  cases part with
  | nil => cases hslash
  | cons c part => exact hslash

/-- Fed in pieces, the tracker is where one update on the text leaves it, exactly
   when no piece begins between the two first bytes of an end tag in a value. -/
theorem tracker_splits (pieces : List Bytes) :
    SplitFree pieces ↔ Admitted track (fun st piece => ¬TagCut st.text piece st.tracker) trackStart pieces := by
  constructor
  · intro hfree
    rw [admitted_iff]
    intro before piece after heq hcut
    have hprev : (run track trackStart before).tracker = oneUpdate (run track trackStart before).text := by
      rcases List.eq_nil_or_concat before with rfl | ⟨init, last, rfl⟩
      · exact trackStart_oneUpdate
      · rw [List.concat_eq_append, run_text]
        exact hfree init last (piece :: after) last (by rw [heq]; simp) List.prefix_rfl
    -- the piece cut after its `/`
    obtain ⟨hval, hend, hlast, hslash⟩ := hcut
    have hpart : [47] <+: piece := by
      cases piece with
      | nil => cases hslash
      | cons c piece =>
        rw [Option.some.inj hslash]
        exact ⟨piece, rfl⟩
    have hboth := hfree before piece after [47] heq hpart
    rw [← run_text, run_concat] at hboth
    have hold := update_settles (run track trackStart before).text dsmlDecodeTrackerInit
    change Settles _ _ (oneUpdate _) at hold
    rw [← hprev] at hold
    obtain ⟨t, ht, hpos⟩ := settles_cut (onText_init _) hold ⟨hval, hend, hlast, rfl⟩ (fun hin => by
      rcases hin.1 with hv | ⟨hv, -⟩ <;> cases hv)
    have hone : oneUpdate (track (run track trackStart before) [47]).text = t := (ht.unique (update_settles _ _)).symm
    have hstay := settles_pos (update_settles ((run track trackStart before).text ++ [47])
      (run track trackStart before).tracker) (by
        rcases hval with hv | ⟨hv, -⟩ <;> rw [hv] <;> simp)
    have hsame : dsmlDecodeTrackerUpdate ((run track trackStart before).text ++ [47])
        (run track trackStart before).tracker = t := hboth.trans hone
    rw [hsame] at hstay
    omega
  · intro hadm before piece after part heq hpart
    rw [admitted_iff] at hadm
    have hbefore : Admitted track (fun st piece => ¬TagCut st.text piece st.tracker) trackStart before :=
      admitted_iff.mpr fun b p a hb => hadm b p (a ++ piece :: after) (by rw [heq, hb]; simp)
    rw [← run_text, run_concat]
    exact track_oneUpdate (run_oneUpdate hbefore) fun hcut => hadm before piece after heq (tagCut_part hpart hcut)

/-- A text cut inside the end tag of a value: the tracker stays in the value. -/
theorem cut_tag_missed :
    (run track trackStart [utf8 "<tool_calls><parameter string=\"true\"><", utf8 "/parameter></tool_calls>"]).tracker ≠
      oneUpdate (utf8 "<tool_calls><parameter string=\"true\"></parameter></tool_calls>") := by
  decide +kernel

end Ds4.Server
