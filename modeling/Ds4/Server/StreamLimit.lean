import Mathlib.Data.List.GetD
import Ds4.Server.Dsml

/- How far a live stream may go into the text generated so far (ds4_server.c):
   the tails that are held back because the next token can turn them into a
   marker, an entity or a whole UTF-8 character.

   A limit is computed on the part of the text not streamed yet, `seg`, and
   counts its bytes: the source's `limit` is its `start` plus that count.

   Correspondence (C ↔ Lean):
     `utf8_expected_len`, `utf8_stream_safe_len`     ↔ `utf8ExpectedLen`, `utf8StreamSafeLen`
     `dsml_entity_stream_safe_len`                   ↔ `dsmlEntityStreamSafeLen`
     `tool_param_value_stream_safe_len`              ↔ `toolParamValueStreamSafeLen`
     `find_any_tool_start`, `text_stream_safe_limit` ↔ `findAnyToolStart`, `textStreamSafeLimit` -/
namespace Ds4.Server
open Bytes

/-! ## UTF-8 tails -/

def utf8ExpectedLen (c : UInt8) : Nat :=
  if c < 0x80 then 1
  else if 0xc2 ≤ c ∧ c ≤ 0xdf then 2
  else if 0xe0 ≤ c ∧ c ≤ 0xef then 3
  else if 0xf0 ≤ c ∧ c ≤ 0xf4 then 4
  else 1

def isContinuation (c : UInt8) : Bool := c &&& 0xc0 == 0x80

/-- The continuation bytes at the end, at most four of them. -/
def trailingContinuations (seg : Bytes) : Nat := ((seg.reverse.take 4).takeWhile isContinuation).length

def utf8StreamSafeLen (seg : Bytes) (final : Bool) : Nat :=
  if final || seg.isEmpty then seg.length
  else
    let p := seg.length - trailingContinuations seg
    if p = seg.length then
      if 1 < utf8ExpectedLen (seg.getD (seg.length - 1) 0) then seg.length - 1 else seg.length
    else if p = 0 && isContinuation (seg.getD p 0) then 0
    else
      let lead := p - 1
      if seg.length - lead < utf8ExpectedLen (seg.getD lead 0) then lead else seg.length

/-! ## Entities and closing tags -/

/-- The last `d` among the last `window` bytes, with the bytes after it. -/
def lastByteTail (d : UInt8) (window : Nat) (seg : Bytes) : Option Bytes :=
  findLastSubstr [d] (seg.drop (seg.length - window))

/-- The text of `seg` before a tail of it. -/
def beforeTail (seg tail : Bytes) : Nat := seg.length - tail.length

/-- A proper beginning of `lit`. -/
def partialOf (tail lit : Bytes) : Bool := tail.length < lit.length && startsWith tail lit

def dsmlEntityStreamSafeLen (seg : Bytes) : Nat :=
  match lastByteTail 38 6 seg with
  | some tail => if dsmlEntities.any fun e => partialOf tail e.1 then beforeTail seg tail else seg.length
  | none => seg.length

def toolParamValueStreamSafeLen (paramEnd : Bytes) (isString : Bool) (seg : Bytes) : Nat :=
  let limit :=
    match lastByteTail 60 paramEnd.length seg with
    | some tail => if partialOf tail paramEnd then beforeTail seg tail else seg.length
    | none => seg.length
  let limit := if isString then dsmlEntityStreamSafeLen (seg.take limit) else limit
  utf8StreamSafeLen (seg.take limit) false

/-! ## Tool markers -/

/-- The earlier of two finds, the first one if they stand at one place. -/
def earlier : Option (Bytes × Bytes) → Option (Bytes × Bytes) → Option (Bytes × Bytes)
  | none, r => r
  | l, none => l
  | some l, some r => if r.1.length < l.1.length then some r else some l

/-- The text before the first opening marker of any spelling, and from it on. -/
def findAnyToolStart (s : Bytes) : Option (Bytes × Bytes) :=
  earlier (earlier (strstr (dsmlSyntax .dsml).toolCallsStart s) (strstr (dsmlSyntax .short).toolCallsStart s))
    (strstr (dsmlSyntax .plain).toolCallsStart s)

def trimmedLen (seg : Bytes) : Nat := (trimToolSeparatorWs seg).length

def textStreamSafeLimit (seg : Bytes) (hasTools final : Bool) : Nat :=
  if !hasTools then utf8StreamSafeLen seg final
  else
    match findAnyToolStart seg with
    | some (before, _) => utf8StreamSafeLen (before.take (trimmedLen before)) true
    | none =>
      if final then utf8StreamSafeLen seg final
      else
        let limit := trimmedLen seg
        let limit :=
          match lastByteTail 60 80 seg with
          | some tail => min (beforeTail seg tail) limit
          | none => limit
        utf8StreamSafeLen (seg.take (trimmedLen (seg.take limit))) final

/-! ## What a limit cuts -/

theorem trailingContinuations_le (seg : Bytes) : trailingContinuations seg ≤ seg.length := by
  have h := (List.takeWhile_sublist isContinuation (l := seg.reverse.take 4)).length_le
  have h' : (seg.reverse.take 4).length ≤ seg.length := by
    rw [List.length_take, List.length_reverse]
    exact Nat.min_le_right _ _
  exact Nat.le_trans h h'

theorem utf8ExpectedLen_ascii {c : UInt8} (h : 1 < utf8ExpectedLen c) : 0x80 ≤ c := by
  unfold utf8ExpectedLen at h
  split at h
  · exact absurd h (by decide)
  · next hc => exact UInt8.not_lt.mp hc

theorem isContinuation_ascii {c : UInt8} (h : isContinuation c = true) : 0x80 ≤ c := by
  revert c
  apply forall_byte
  decide +kernel

/-- A cut for UTF-8 stands before a byte that is not ASCII. -/
theorem utf8StreamSafeLen_cut (seg : Bytes) (final : Bool) :
    utf8StreamSafeLen seg final = seg.length ∨
    (utf8StreamSafeLen seg final < seg.length ∧
      0x80 ≤ seg.getD (utf8StreamSafeLen seg final) 0) := by
  unfold utf8StreamSafeLen
  split
  · exact .inl rfl
  · next hne =>
    have hpos : 0 < seg.length := by
      rw [Bool.or_eq_true, not_or] at hne
      cases seg with
      | nil => exact absurd rfl hne.2
      | cons c s => simp
    have hcont := trailingContinuations_le seg
    dsimp only
    split
    · split
      · next h => exact .inr ⟨by omega, utf8ExpectedLen_ascii h⟩
      · exact .inl rfl
    · split
      · next h =>
        rw [Bool.and_eq_true, decide_eq_true_eq] at h
        rw [h.1] at h
        exact .inr ⟨hpos, isContinuation_ascii h.2⟩
      · split
        · next hp _ h => exact .inr ⟨by omega, utf8ExpectedLen_ascii (by omega)⟩
        · exact .inl rfl

theorem findLastSubstr_byte (d : UInt8) : ∀ s : Bytes,
    match findLastSubstr [d] s with
    | some tail => ∃ a r, s = a ++ tail ∧ tail = d :: r ∧ d ∉ r
    | none => d ∉ s
  | [] => by simp [findLastSubstr]
  | c :: s => by
    have ih := findLastSubstr_byte d s
    rw [findLastSubstr]
    cases h : findLastSubstr [d] s with
    | some tail =>
      rw [h] at ih
      obtain ⟨a, r, hs, ht⟩ := ih
      exact ⟨c :: a, r, by rw [hs]; rfl, ht⟩
    | none =>
      rw [h] at ih
      dsimp only at ih ⊢
      by_cases hc : d = c
      · rw [if_pos (by simp [hc])]
        exact ⟨[], s, rfl, by rw [hc], ih⟩
      · rw [if_neg (by simp [hc])]
        dsimp only
        rw [List.mem_cons, not_or]
        exact ⟨hc, ih⟩

theorem lastByteTail_some {d : UInt8} {window : Nat} {seg tail : Bytes}
    (h : lastByteTail d window seg = some tail) :
    ∃ a r, seg = a ++ tail ∧ tail = d :: r ∧ d ∉ r := by
  have hf := findLastSubstr_byte d (seg.drop (seg.length - window))
  rw [show findLastSubstr [d] _ = some tail from h] at hf
  obtain ⟨a, r, hs, ht⟩ := hf
  refine ⟨seg.take (seg.length - window) ++ a, r, ?_, ht⟩
  rw [List.append_assoc, ← hs, List.take_append_drop]

/-- A short tail that starts with its only `d` is the one found. -/
theorem lastByteTail_eq {d : UInt8} {window : Nat} {a r : Bytes} (hr : d ∉ r)
    (hlen : r.length < window) : lastByteTail d window (a ++ d :: r) = some (d :: r) := by
  have hdrop : (a ++ d :: r).drop ((a ++ d :: r).length - window) =
      a.drop ((a ++ d :: r).length - window) ++ d :: r := by
    apply List.drop_append_of_le_length
    rw [List.length_append, List.length_cons]
    omega
  rw [lastByteTail, hdrop]
  generalize a.drop ((a ++ d :: r).length - window) = b
  have hlast : findLastSubstr [d] (d :: r) = some (d :: r) := by
    have hf := findLastSubstr_byte d r
    rw [findLastSubstr]
    cases h : findLastSubstr [d] r with
    | some tail =>
      rw [h] at hf
      obtain ⟨x, y, hxy, ht, -⟩ := hf
      exact absurd (by rw [hxy, ht]; simp) hr
    | none => simp
  induction b with
  | nil => exact hlast
  | cons c b ih => rw [List.cons_append, findLastSubstr, ih]

theorem beforeTail_append (a tail : Bytes) : beforeTail (a ++ tail) tail = a.length := by
  rw [beforeTail, List.length_append, Nat.add_sub_cancel]

theorem utf8StreamSafeLen_le (seg : Bytes) (final : Bool) : utf8StreamSafeLen seg final ≤ seg.length := by
  rcases utf8StreamSafeLen_cut seg final with h | h <;> omega

/-- Where no marker is in sight, the limit is under every bound on the text before it. -/
theorem textStreamSafeLimit_bound {seg : Bytes} (hnone : findAnyToolStart seg = none) {n : Nat}
    (hn : (match lastByteTail 60 80 seg with
      | some tail => min (beforeTail seg tail) (trimmedLen seg)
      | none => trimmedLen seg) ≤ n) : textStreamSafeLimit seg true false ≤ n := by
  rw [textStreamSafeLimit, if_neg (by decide), hnone]
  dsimp only
  rw [if_neg Bool.false_ne_true]
  generalize (match lastByteTail 60 80 seg with
      | some tail => min (beforeTail seg tail) (trimmedLen seg)
      | none => trimmedLen seg) = limit at hn ⊢
  have h1 := (List.rdropWhile_prefix isSpace (seg.take limit)).length_le
  have h2 := utf8StreamSafeLen_le (seg.take (trimmedLen (seg.take limit))) false
  rw [List.length_take] at h1 h2
  change trimmedLen (seg.take limit) ≤ _ at h1
  omega

theorem textStreamSafeLimit_le {seg : Bytes} (hnone : findAnyToolStart seg = none) :
    textStreamSafeLimit seg true false ≤ seg.length := by
  apply textStreamSafeLimit_bound hnone
  have htrim : trimmedLen seg ≤ seg.length := (List.rdropWhile_prefix isSpace seg).length_le
  split
  · exact Nat.le_trans (Nat.min_le_right _ _) htrim
  · exact htrim

/-- The marker of a tail not yet decided is held. -/
theorem textStreamSafeLimit_hold {a r : Bytes} (hr : (60 : UInt8) ∉ r) (hlen : r.length < 80)
    (hnone : findAnyToolStart (a ++ 60 :: r) = none) :
    textStreamSafeLimit (a ++ 60 :: r) true false ≤ a.length := by
  apply textStreamSafeLimit_bound hnone
  rw [lastByteTail_eq hr hlen]
  dsimp only
  rw [beforeTail_append]
  exact Nat.min_le_left _ _

/-! ## Cutting a string value -/

/-- No entity begins in `a` and ends in `b`. -/
def EntityCut (a b : Bytes) : Prop :=
  ∀ e ∈ dsmlEntities, ∀ u, u ≠ [] → u <:+ a → u.length < e.1.length → startsWith u e.1 = true →
    startsWith (e.1.drop u.length) b = false

theorem EntityCut.tail {c : UInt8} {a b : Bytes} (h : EntityCut (c :: a) b) : EntityCut a b :=
  fun e he u hu hs => h e he u hu (hs.trans (List.suffix_cons c a))

theorem startsWith_append_split (lit b : Bytes) : ∀ a : Bytes, a.length < lit.length →
    startsWith lit (a ++ b) = (startsWith a lit && startsWith (lit.drop a.length) b)
  | [], _ => by simp
  | c :: a, h => by
    cases lit with
    | nil => simp at h
    | cons x lit =>
      have ih := startsWith_append_split lit b a (by simpa using h)
      simp only [List.cons_append, startsWith_cons_cons, List.length_cons, List.drop_succ_cons, ih]
      rw [← Bool.and_assoc, Bool.beq_comm]

theorem startsWith_append_long {lit : Bytes} (b : Bytes) : ∀ {a : Bytes}, lit.length ≤ a.length →
    startsWith lit (a ++ b) = startsWith lit a := by
  induction lit with
  | nil => intro a _; simp
  | cons x lit ih =>
    intro a h
    cases a with
    | nil => simp at h
    | cons c a => simp [ih (a := a) (by simpa using h)]

theorem EntityCut.entityAt {c : UInt8} {a b : Bytes} (h : EntityCut (c :: a) b) :
    entityAt (c :: a ++ b) = entityAt (c :: a) := by
  have hsame : ∀ e ∈ dsmlEntities, startsWith e.1 (c :: a ++ b) = startsWith e.1 (c :: a) := by
    intro e he
    by_cases hlen : (c :: a).length < e.1.length
    · have hno : startsWith e.1 (c :: a) = false := by
        rw [Bool.eq_false_iff]
        intro hs
        obtain ⟨r, hr⟩ := startsWith_iff.mp hs
        rw [hr, List.length_append] at hlen
        omega
      rw [startsWith_append_split _ _ _ hlen, hno]
      cases hs : startsWith (c :: a) e.1 with
      | false => rfl
      | true => rw [h e he _ (by simp) List.suffix_rfl hlen hs]; rfl
    · exact startsWith_append_long b (by omega)
  rw [Ds4.Server.entityAt, Ds4.Server.entityAt]
  generalize dsmlEntities = es at hsame ⊢
  induction es with
  | nil => rfl
  | cons e es ih =>
    rw [List.forall_mem_cons] at hsame
    rw [List.find?_cons, List.find?_cons, hsame.1, ih hsame.2]

/-- A value cut where no entity stands is decoded piece by piece. -/
theorem dsmlUnescapeFrom_cut {b : Bytes} : ∀ (a : Bytes) (n : Nat), n ≤ a.length → EntityCut a b →
    dsmlUnescapeFrom n (a ++ b) = dsmlUnescapeFrom n a ++ dsmlUnescapeText b
  | [], n, hn, _ => by
    obtain rfl : n = 0 := by simpa using hn
    rfl
  | c :: a, n + 1, hn, h => dsmlUnescapeFrom_cut a n (by simpa using hn) h.tail
  | c :: a, 0, _, h => by
    have hat := h.entityAt
    rw [List.cons_append] at hat ⊢
    rw [dsmlUnescapeFrom, dsmlUnescapeFrom, hat]
    cases he : Ds4.Server.entityAt (c :: a) with
    | none =>
      dsimp only
      rw [dsmlUnescapeFrom_cut a 0 (Nat.zero_le _) h.tail]
      rfl
    | some e =>
      have hfind : dsmlEntities.find? (fun e => startsWith e.1 (c :: a)) = some e := he
      have hstart := List.find?_some hfind
      obtain ⟨r, hr⟩ := startsWith_iff.mp hstart
      have hlen := congrArg List.length hr
      rw [List.length_cons, List.length_append] at hlen
      dsimp only
      rw [dsmlUnescapeFrom_cut a _ (by omega) h.tail]
      rfl

theorem entity_tail {e : Bytes × UInt8} (he : e ∈ dsmlEntities) :
    ∀ c ∈ e.1.drop 1, c ≠ 60 ∧ c ≠ 38 ∧ ¬ 0x80 ≤ c := by
  revert e
  decide +kernel

/-- What stands before a byte that no entity goes on with can be cut off. -/
theorem entityCut_of_head {a b : Bytes} (hb : ∀ c r, b = c :: r → c = 60 ∨ c = 38 ∨ 0x80 ≤ c) :
    EntityCut a b := by
  intro e he u hu _ hlen _
  rw [Bool.eq_false_iff]
  intro hs
  have hpos : 0 < u.length := List.length_pos_of_ne_nil hu
  cases hd : e.1.drop u.length with
  | nil =>
    rw [List.drop_eq_nil_iff] at hd
    omega
  | cons c r =>
    rw [hd] at hs
    have hmem : c ∈ e.1.drop 1 := by
      have : c ∈ e.1.drop u.length := by rw [hd]; simp
      rw [show u.length = 1 + (u.length - 1) by omega, ← List.drop_drop] at this
      exact List.mem_of_mem_drop this
    obtain ⟨h1, h2, h3⟩ := entity_tail he c hmem
    cases b with
    | nil => cases hs
    | cons x b =>
      rw [startsWith_cons_cons, Bool.and_eq_true, beq_iff_eq] at hs
      rcases hb x b rfl with h | h | h
      · exact h1 (hs.1.trans h)
      · exact h2 (hs.1.trans h)
      · exact h3 (hs.1 ▸ h)

theorem dsmlEntityStreamSafeLen_cut (seg : Bytes) :
    (dsmlEntityStreamSafeLen seg = seg.length ∧ ∀ b, EntityCut seg b) ∨
    (dsmlEntityStreamSafeLen seg < seg.length ∧ seg.getD (dsmlEntityStreamSafeLen seg) 0 = 38) := by
  unfold dsmlEntityStreamSafeLen
  have open_tail : ∀ b, (∀ u, u <:+ seg → (∃ r, u = 38 :: r ∧ (38 : UInt8) ∉ r ∧ r.length < 6) →
      ∀ e ∈ dsmlEntities, partialOf u e.1 = false) → EntityCut seg b := by
    intro b h e he u hu hsuf hlen hs
    obtain ⟨l, hl, h38⟩ := entity_shape he
    cases u with
    | nil => exact absurd rfl hu
    | cons x r =>
      obtain ⟨t, ht⟩ := startsWith_iff.mp hs
      rw [hl] at ht
      obtain ⟨rfl, hlt⟩ := List.cons.inj ht
      have hmax : ∀ e ∈ dsmlEntities, e.1.length ≤ 6 := by decide
      have hshort := hmax e he
      have hp := h (38 :: r) hsuf ⟨r, rfl, fun hm => h38 (by rw [hlt]; exact List.mem_append_left _ hm),
        by rw [List.length_cons] at hlen; omega⟩ e he
      rw [partialOf, hs, decide_eq_true hlen] at hp
      cases hp
  cases h : lastByteTail 38 6 seg with
  | none =>
    refine .inl ⟨rfl, fun b => open_tail b fun u hu ⟨r, hur, hr, hlen⟩ e _ => ?_⟩
    obtain ⟨a, ha⟩ := hu
    rw [← ha, hur, lastByteTail_eq hr (by omega)] at h
    cases h
  | some tail =>
    obtain ⟨a, r, hseg, htail, hr⟩ := lastByteTail_some h
    dsimp only
    split
    · refine .inr ?_
      rw [hseg, beforeTail_append, htail]
      simp
    · next hno =>
      refine .inl ⟨rfl, fun b => open_tail b fun u hu ⟨r', hur, hr', hlen⟩ e he => ?_⟩
      obtain ⟨a', ha'⟩ := hu
      rw [← ha', hur, lastByteTail_eq hr' (by omega)] at h
      rw [hur, Option.some.inj h, Bool.eq_false_iff]
      intro hp
      exact hno (List.any_eq_true.mpr ⟨e, he, hp⟩)

theorem getD_take {seg : Bytes} {i n : Nat} (h : i < n) : (seg.take n).getD i 0 = seg.getD i 0 := by
  rw [List.getD_eq_getElem?_getD, List.getD_eq_getElem?_getD, List.getElem?_take_of_lt h]

/-- How the limit of a value stands to the part of it in sight: all of it, or up
    to a byte that no entity goes on with. -/
theorem toolParamValueStreamSafeLen_cut (paramEnd : Bytes) (isString : Bool) (seg : Bytes) :
    let k := toolParamValueStreamSafeLen paramEnd isString seg
    (k = seg.length ∧ (isString = true → ∀ b, EntityCut seg b)) ∨
    (k < seg.length ∧ (seg.getD k 0 = 60 ∨ seg.getD k 0 = 38 ∨ 0x80 ≤ seg.getD k 0)) := by
  intro k
  obtain ⟨l1, hl1, h1⟩ : ∃ l1, k = utf8StreamSafeLen (seg.take
      (if isString then dsmlEntityStreamSafeLen (seg.take l1) else l1)) false ∧
      (l1 = seg.length ∨ l1 < seg.length ∧ seg.getD l1 0 = 60) := by
    refine ⟨_, rfl, ?_⟩
    cases h : lastByteTail 60 paramEnd.length seg with
    | none => exact .inl rfl
    | some tail =>
      obtain ⟨a, r, hseg, htail, -⟩ := lastByteTail_some h
      dsimp only
      split
      · refine .inr ?_
        rw [hseg, beforeTail_append, htail]
        simp
      · exact .inl rfl
  obtain ⟨l2, hl2, h2⟩ : ∃ l2, (if isString then dsmlEntityStreamSafeLen (seg.take l1) else l1) = l2 ∧
      (l2 = l1 ∧ (isString = true → ∀ b, EntityCut (seg.take l1) b) ∨ l2 < l1 ∧ seg.getD l2 0 = 38) := by
    refine ⟨_, rfl, ?_⟩
    split
    · have hlen : (seg.take l1).length = l1 := by
        rw [List.length_take]
        omega
      rcases dsmlEntityStreamSafeLen_cut (seg.take l1) with ⟨h, hcut⟩ | ⟨h, hbyte⟩
      · exact .inl ⟨by rw [h, hlen], fun _ => hcut⟩
      · rw [hlen] at h
        rw [getD_take h] at hbyte
        exact .inr ⟨h, hbyte⟩
    · next hs => exact .inl ⟨rfl, fun h => absurd h hs⟩
  rw [hl2] at hl1
  have hlen2 : (seg.take l2).length = l2 := by
    rw [List.length_take]
    omega
  rcases utf8StreamSafeLen_cut (seg.take l2) false with h3 | ⟨h3, hbyte⟩
  · rw [← hl1, hlen2] at h3
    rcases h2 with ⟨h2, hcut⟩ | ⟨h2, hbyte⟩
    · rcases h1 with h1 | ⟨h1, hbyte⟩
      · rw [h1, List.take_length] at hcut
        exact .inl ⟨by omega, hcut⟩
      · exact .inr ⟨by omega, .inl (by rw [h3, h2, hbyte])⟩
    · exact .inr ⟨by omega, .inr (.inl (by rw [h3, hbyte]))⟩
  · rw [← hl1, hlen2] at h3
    rw [← hl1, getD_take h3] at hbyte
    exact .inr ⟨by omega, .inr (.inr hbyte)⟩

/-- What is in sight of a value that has not ended: a part of it, or all of it and
    a beginning of its closing tag. -/
theorem value_in_sight {l value y seg : Bytes} (hl : (60 : UInt8) ∉ l)
    (hseg : seg <+: value ++ (60 :: l ++ y)) (hnone : strstr (60 :: l) seg = none) :
    seg <+: value ∨ ∃ q, seg = value ++ 60 :: q ∧ partialOf (60 :: q) (60 :: l) = true ∧
      (60 : UInt8) ∉ q := by
  rcases Nat.le_total seg.length value.length with hlen | hlen
  · exact .inl (List.prefix_of_prefix_length_le hseg (List.prefix_append _ _) hlen)
  · obtain ⟨q, rfl⟩ := List.prefix_of_prefix_length_le (List.prefix_append value _) hseg hlen
    rw [List.prefix_append_right_inj] at hseg
    cases q with
    | nil => exact .inl (by simp)
    | cons c q =>
      have hshort : (c :: q).length < (60 :: l).length := by
        rw [← Nat.not_le]
        intro hle
        obtain ⟨z, hz⟩ := List.prefix_of_prefix_length_le (List.prefix_append (60 :: l) y) hseg hle
        rw [← hz] at hnone
        exact strstr_of_infix ⟨value, z, by simp⟩ hnone
      have hq := List.prefix_of_prefix_length_le hseg (List.prefix_append (60 :: l) y) (by omega)
      obtain ⟨rfl, hql⟩ := List.cons_prefix_cons.mp hq
      refine .inr ⟨q, rfl, ?_, fun hm => hl (hql.subset hm)⟩
      rw [partialOf, decide_eq_true hshort, Bool.true_and]
      exact List.isPrefixOf_iff_prefix.mpr hq

/-- The limit stays inside the value and cuts no entity. -/
theorem toolParamValue_limit {l value y seg : Bytes} (isString : Bool) (hl : (60 : UInt8) ∉ l)
    (hseg : seg <+: value ++ (60 :: l ++ y)) (hnone : strstr (60 :: l) seg = none) :
    let k := toolParamValueStreamSafeLen (60 :: l) isString seg
    k ≤ seg.length ∧ k ≤ value.length ∧ seg.take k = value.take k ∧
      (isString = true → dsmlUnescapeText value =
        dsmlUnescapeText (value.take k) ++ dsmlUnescapeText (value.drop k)) := by
  intro k
  have hcut := toolParamValueStreamSafeLen_cut (60 :: l) isString seg
  have hk : k ≤ seg.length := by
    rcases hcut with h | h
    · exact Nat.le_of_eq h.1
    · exact Nat.le_of_lt h.1
  -- both texts start with the first `k` bytes, and go on alike when both do
  obtain ⟨hkv, htake, hbyte⟩ : k ≤ value.length ∧ seg.take k = value.take k ∧
      (k < seg.length → k < value.length → seg.getD k 0 = value.getD k 0) := by
    rcases value_in_sight hl hseg hnone with ⟨z, rfl⟩ | ⟨q, rfl, hpart, hq⟩
    · refine ⟨by rw [List.length_append]; omega, by rw [List.take_append_of_le_length hk], fun h _ => ?_⟩
      rw [List.getD_append _ _ _ _ h]
    · have hkv : k ≤ value.length := by
        have hlen : q.length < (60 :: l).length := by
          rw [partialOf, Bool.and_eq_true, decide_eq_true_eq] at hpart
          rw [List.length_cons] at hpart
          omega
        have hle : ∀ s : Bytes, utf8StreamSafeLen s false ≤ s.length := by
          intro s
          rcases utf8StreamSafeLen_cut s false with h | h <;> omega
        have hent : ∀ s : Bytes, dsmlEntityStreamSafeLen s ≤ s.length := by
          intro s
          rcases dsmlEntityStreamSafeLen_cut s with h | h <;> omega
        show toolParamValueStreamSafeLen (60 :: l) isString (value ++ 60 :: q) ≤ value.length
        rw [toolParamValueStreamSafeLen, lastByteTail_eq hq hlen]
        dsimp only
        rw [if_pos hpart, beforeTail_append, List.take_left]
        apply Nat.le_trans (hle _)
        rw [List.length_take]
        apply Nat.le_trans (Nat.min_le_left _ _)
        split
        · exact hent value
        · exact Nat.le_refl _
      refine ⟨hkv, by rw [List.take_append_of_le_length hkv], fun _ h => ?_⟩
      rw [List.getD_append _ _ _ _ h]
  refine ⟨hk, hkv, htake, fun hs => ?_⟩
  have hent : EntityCut (value.take k) (value.drop k) := by
    rcases hcut with ⟨hfull, hall⟩ | ⟨hlt, hc⟩
    · rw [← htake, show k = seg.length from hfull, List.take_length]
      exact hall hs _
    · apply entityCut_of_head
      intro c r hd
      have hklt : k < value.length := by
        rw [← Nat.not_le, ← List.drop_eq_nil_iff, hd]
        simp
      have hc' : c = value.getD k 0 := by
        rw [List.drop_eq_getElem_cons hklt] at hd
        rw [List.getD_eq_getElem _ _ hklt]
        exact (List.cons.inj hd).1.symm
      rw [hc', ← hbyte hlt hklt]
      exact hc
  have h := dsmlUnescapeFrom_cut (value.take k) 0 (Nat.zero_le _) hent
  rw [List.take_append_drop] at h
  exact h

end Ds4.Server
