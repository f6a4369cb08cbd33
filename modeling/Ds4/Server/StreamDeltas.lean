import Ds4.Server.JsonLiteral
import Ds4.Server.StreamedText

/- What the live streams send of a text, and where they cut it (ds4_server.c).

   PROVED here (`deltas_streamed`): over valid UTF-8 and any updates, the deltas of a
   channel are whole characters, one behind the other without a gap, and together all
   of what belongs to the channel. `utf8StreamSafeLen_held`: of arbitrary bytes a limit
   for UTF-8 holds more than three back exactly for four continuation bytes with
   nothing before them.

   Correspondence (C ↔ Lean):
     the plain stream of `generate_job`               ↔ `.plain`
     `STREAM_THINKING` of the three chat streams      ↔ `.thinking`, with tools in the OpenAI stream
     `STREAM_TEXT` of the three chat streams          ↔ `.text`
     the value of a parameter in the two tool streams ↔ `.value`
   For the OpenAI stream `thinkingPhase_sends` and `textPhase_sends` tie `update` to the
   phases. Every delta is taken by the connection. -/
namespace Ds4.Server
open Bytes

/-! ## Characters and their tails -/

/-- A character's first byte tells its length, and continuation bytes follow it. -/
theorem utf8EncodeChar_shape (c : Char) : ∃ lead conts, String.utf8EncodeChar c = lead :: conts ∧
    isContinuation lead = false ∧ (∀ b ∈ conts, isContinuation b = true) ∧ conts.length ≤ 3 ∧
    utf8ExpectedLen lead = conts.length + 1 := by
  have hmax : c.val.toNat < 0x110000 := by
    rcases c.valid with h | h
    · exact Nat.lt_trans h (by decide)
    · exact h.2
  have hcont : ∀ n, isContinuation (UInt8.ofNat (n % 0x40 + 0x80)) = true := by
    intro n
    have hlt : n % 0x40 < 0x40 := Nat.mod_lt _ (by decide)
    generalize n % 0x40 = k at hlt
    revert k
    decide
  have h1 : ∀ n ≤ 0x7f, isContinuation (UInt8.ofNat n) = false ∧ utf8ExpectedLen (UInt8.ofNat n) = 1 := by decide
  have h2 : ∀ n < 0x20, 2 ≤ n → isContinuation (UInt8.ofNat (n + 0xc0)) = false ∧
      utf8ExpectedLen (UInt8.ofNat (n + 0xc0)) = 2 := by decide
  have h3 : ∀ n < 0x10, isContinuation (UInt8.ofNat (n + 0xe0)) = false ∧
      utf8ExpectedLen (UInt8.ofNat (n + 0xe0)) = 3 := by decide
  have h4 : ∀ n ≤ 4, isContinuation (UInt8.ofNat (n + 0xf0)) = false ∧
      utf8ExpectedLen (UInt8.ofNat (n + 0xf0)) = 4 := by decide
  rw [String.utf8EncodeChar]
  split
  next h => exact ⟨_, [], rfl, (h1 _ h).1, by simp, by simp, (h1 _ h).2⟩
  next h =>
    split
    next h' =>
      have hlead := h2 (c.val.toNat / 64 % 0x20) (by omega) (by omega)
      exact ⟨_, [_], rfl, hlead.1, by simpa only [List.forall_mem_singleton] using hcont _, by simp, hlead.2⟩
    next h' =>
      split
      next h'' =>
        have hlead := h3 (c.val.toNat / 4096 % 0x10) (by omega)
        exact ⟨_, [_, _], rfl, hlead.1, by simp only [List.forall_mem_cons, hcont, List.not_mem_nil, false_imp_iff,
          implies_true, and_self], by simp, hlead.2⟩
      next h'' =>
        have hlead := h4 (c.val.toNat / 262144 % 0x08) (by omega)
        exact ⟨_, [_, _, _], rfl, hlead.1, by simp only [List.forall_mem_cons, hcont, List.not_mem_nil, false_imp_iff,
          implies_true, and_self], by simp, hlead.2⟩

theorem trailingContinuations_eq (x : Bytes) {lead : UInt8} {conts : Bytes} (hlead : isContinuation lead = false)
    (hconts : ∀ b ∈ conts, isContinuation b = true) (hlen : conts.length ≤ 3) :
    trailingContinuations (x ++ lead :: conts) = conts.length := by
  have hreverse : (x ++ lead :: conts).reverse = conts.reverse ++ lead :: x.reverse := by simp
  have htake : (conts.reverse ++ lead :: x.reverse).take 4 = conts.reverse ++ lead :: x.reverse.take (3 - conts.length) := by
    rw [List.take_append, List.length_reverse, List.take_of_length_le (by simp; omega),
      show 4 - conts.length = (3 - conts.length) + 1 by omega, List.take_succ_cons]
  have hall : ∀ b ∈ conts.reverse, isContinuation b = true := fun b hb => hconts b (List.mem_reverse.mp hb)
  rw [trailingContinuations, hreverse, htake, List.takeWhile_append_of_pos hall,
    List.takeWhile_cons_of_neg (by simp [hlead]), List.append_nil, List.length_reverse]

/-- The limit behind whole characters and a beginning of one more. -/
theorem utf8StreamSafeLen_tail (x : Bytes) {lead : UInt8} {conts : Bytes} (hlead : isContinuation lead = false)
    (hconts : ∀ b ∈ conts, isContinuation b = true) (hlen : conts.length ≤ 3) :
    utf8StreamSafeLen (x ++ lead :: conts) false =
      if conts.length + 1 < utf8ExpectedLen lead then x.length else (x ++ lead :: conts).length := by
  have htrail := trailingContinuations_eq x hlead hconts hlen
  have htotal : (x ++ lead :: conts).length = x.length + (conts.length + 1) := by simp
  have hgetlead : (x ++ lead :: conts).getD x.length 0 = lead := by simp
  have hne : (x ++ lead :: conts).isEmpty = false := by simp
  rw [utf8StreamSafeLen, hne, Bool.or_false, if_neg Bool.false_ne_true, htrail]
  dsimp only
  cases conts with
  | nil =>
    rw [if_pos (by simp)]
    simp
  | cons b conts =>
    have hp : (x ++ lead :: b :: conts).length - (b :: conts).length = x.length + 1 := by
      rw [htotal]
      omega
    rw [hp, if_neg (by rw [htotal, List.length_cons]; omega), if_neg (by simp), Nat.add_sub_cancel, hgetlead, htotal,
      Nat.add_sub_cancel_left]

theorem utf8StreamSafeLen_whole (x : Bytes) (c : Char) :
    utf8StreamSafeLen (x ++ String.utf8EncodeChar c) false = (x ++ String.utf8EncodeChar c).length := by
  obtain ⟨lead, conts, henc, hlead, hconts, hlen, hneed⟩ := utf8EncodeChar_shape c
  rw [henc, utf8StreamSafeLen_tail x hlead hconts hlen, hneed, if_neg (Nat.lt_irrefl _)]

theorem utf8StreamSafeLen_part (x : Bytes) (c : Char) {q : Nat} (h0 : 0 < q) (hq : q < (String.utf8EncodeChar c).length) :
    utf8StreamSafeLen (x ++ (String.utf8EncodeChar c).take q) false = x.length ∧ q ≤ 3 := by
  obtain ⟨lead, conts, henc, hlead, hconts, hlen, hneed⟩ := utf8EncodeChar_shape c
  rw [henc, List.length_cons] at hq
  obtain ⟨q, rfl⟩ : ∃ q', q = q' + 1 := ⟨q - 1, by omega⟩
  have hshort : (conts.take q).length = q := by
    rw [List.length_take]
    omega
  rw [henc, List.take_succ_cons, utf8StreamSafeLen_tail x hlead (fun b hb => hconts b (List.mem_of_mem_take hb)) (by omega),
    hshort, hneed, if_pos hq]
  exact ⟨rfl, by omega⟩

/-! ## Boundaries -/

/-- The first `k` bytes of a text are whole characters. -/
def Whole (cs : List Char) (k : Nat) : Prop := ∃ a b, cs = a ++ b ∧ (utf8Chars cs).take k = utf8Chars a

theorem utf8Chars_append (a b : List Char) : utf8Chars (a ++ b) = utf8Chars a ++ utf8Chars b := List.flatMap_append

/-- The first bytes of a text are whole characters and a beginning of the next one. -/
theorem utf8Chars_take (cs : List Char) (n : Nat) : Whole cs n ∨
    ∃ a c b q, cs = a ++ c :: b ∧ 0 < q ∧ q < (String.utf8EncodeChar c).length ∧ n = (utf8Chars a).length + q ∧
      (utf8Chars cs).take n = utf8Chars a ++ (String.utf8EncodeChar c).take q := by
  induction cs generalizing n with
  | nil => exact .inl ⟨[], [], rfl, by simp [utf8Chars]⟩
  | cons c cs ih =>
    have hcons : utf8Chars (c :: cs) = String.utf8EncodeChar c ++ utf8Chars cs := rfl
    by_cases hn : n < (String.utf8EncodeChar c).length
    · rcases Nat.eq_zero_or_pos n with rfl | hpos
      · exact .inl ⟨[], c :: cs, rfl, rfl⟩
      · refine .inr ⟨[], c, cs, n, rfl, hpos, hn, by simp [utf8Chars], ?_⟩
        rw [hcons, List.take_append_of_le_length (Nat.le_of_lt hn)]
        rfl
    · have htake : (utf8Chars (c :: cs)).take n =
          String.utf8EncodeChar c ++ (utf8Chars cs).take (n - (String.utf8EncodeChar c).length) := by
        rw [hcons, List.take_append, List.take_of_length_le (Nat.not_lt.mp hn)]
      rcases ih (n - (String.utf8EncodeChar c).length) with ⟨a, b, rfl, h⟩ | ⟨a, d, b, q, rfl, hpos, hq, hlen, h⟩
      · exact .inl ⟨c :: a, b, rfl, by rw [htake, h]; rfl⟩
      · refine .inr ⟨c :: a, d, b, q, rfl, hpos, hq, ?_, by rw [htake, h, ← List.append_assoc]; rfl⟩
        have hca : (utf8Chars (c :: a)).length = (String.utf8EncodeChar c).length + (utf8Chars a).length :=
          List.length_append
        omega

theorem whole_all (cs : List Char) : Whole cs (utf8Chars cs).length := ⟨cs, [], by simp, by simp⟩

/-- A byte that continues no character begins one. -/
theorem whole_of_byte {cs : List Char} {k : Nat} (h : isContinuation ((utf8Chars cs).getD k 0) = false) : Whole cs k := by
  rcases utf8Chars_take cs k with hwhole | ⟨a, c, b, q, rfl, hpos, hq, rfl, -⟩
  · exact hwhole
  · exfalso
    obtain ⟨lead, conts, henc, -, hconts, -, -⟩ := utf8EncodeChar_shape c
    obtain ⟨q, rfl⟩ : ∃ q', q = q' + 1 := ⟨q - 1, by omega⟩
    have hsplit : utf8Chars (a ++ c :: b) = utf8Chars a ++ (lead :: conts ++ utf8Chars b) := by
      rw [utf8Chars_append, ← henc]
      rfl
    rw [henc, List.length_cons] at hq
    rw [hsplit, List.getD_append_right _ _ _ _ (Nat.le_add_right _ _), Nat.add_sub_cancel_left,
      List.getD_append _ _ _ _ (by rw [List.length_cons]; omega), List.getD_cons_succ,
      List.getD_eq_getElem _ _ (by omega), hconts _ (List.getElem_mem _)] at h
    cases h

/-- A limit of valid text that starts at a character stands behind one, and holds at
    most three bytes back. -/
theorem utf8StreamSafeLen_chars (cs : List Char) (n : Nat) :
    Whole cs (utf8StreamSafeLen ((utf8Chars cs).take n) false) ∧
      ((utf8Chars cs).take n).length ≤ utf8StreamSafeLen ((utf8Chars cs).take n) false + 3 := by
  rcases utf8Chars_take cs n with ⟨a, b, rfl, htake⟩ | ⟨a, c, b, q, rfl, hpos, hq, -, htake⟩
  · have hfull : utf8StreamSafeLen (utf8Chars a) false = (utf8Chars a).length := by
      rcases List.eq_nil_or_concat a with rfl | ⟨a, c, rfl⟩
      · rfl
      · have hsnoc : utf8Chars (a ++ [c]) = utf8Chars a ++ String.utf8EncodeChar c := by simp [utf8Chars]
        rw [List.concat_eq_append, hsnoc]
        exact utf8StreamSafeLen_whole _ c
    rw [htake, hfull]
    exact ⟨⟨a, b, rfl, by rw [utf8Chars_append, List.take_left]⟩, by omega⟩
  · obtain ⟨hsafe, hq3⟩ := utf8StreamSafeLen_part (utf8Chars a) c hpos hq
    rw [htake, hsafe]
    refine ⟨⟨a, c :: b, rfl, by rw [utf8Chars_append, List.take_left]⟩, ?_⟩
    rw [List.length_append, List.length_take]
    omega

theorem utf8ExpectedLen_le (c : UInt8) : utf8ExpectedLen c ≤ 4 := by
  unfold utf8ExpectedLen
  repeat' split
  all_goals decide

/-- A window of four continuation bytes, one more than a character has. -/
def FourContinuations (seg : Bytes) : Prop := seg.length = 4 ∧ ∀ b ∈ seg, isContinuation b = true

theorem trailingContinuations_four {seg : Bytes} (hlen : seg.length = 4) :
    trailingContinuations seg = 4 ↔ ∀ b ∈ seg, isContinuation b = true := by
  have htake : seg.reverse.take 4 = seg.reverse := List.take_of_length_le (by rw [List.length_reverse, hlen])
  rw [trailingContinuations, htake]
  constructor
  · intro h b hb
    have hall := (List.takeWhile_prefix isContinuation (l := seg.reverse)).eq_of_length (by rw [h, List.length_reverse, hlen])
    exact List.takeWhile_eq_self_iff.mp hall b (List.mem_reverse.mpr hb)
  · intro h
    have hall : ∀ b ∈ seg.reverse, isContinuation b = true := fun b hb => h b (List.mem_reverse.mp hb)
    rw [List.takeWhile_eq_self_iff.mpr hall, List.length_reverse, hlen]

/-- Of arbitrary bytes more than three are held back in one case only. -/
theorem utf8StreamSafeLen_held (seg : Bytes) : utf8StreamSafeLen seg false ≤ seg.length ∧
    (seg.length ≤ utf8StreamSafeLen seg false + 3 ↔ ¬FourContinuations seg) := by
  refine ⟨utf8StreamSafeLen_le seg false, ?_⟩
  have htrail : trailingContinuations seg ≤ 4 :=
    Nat.le_trans (List.takeWhile_prefix isContinuation).length_le (List.length_take_le _ _)
  have hle := trailingContinuations_le seg
  rw [utf8StreamSafeLen]
  cases hempty : seg.isEmpty with
  | true =>
    rw [List.isEmpty_iff] at hempty
    subst hempty
    simp [FourContinuations]
  | false =>
    rw [Bool.or_false, if_neg Bool.false_ne_true]
    dsimp only
    split
    next hp =>
      -- no continuation byte at the end
      have hnone : ¬FourContinuations seg := by
        rintro ⟨hlen, hall⟩
        have := (trailingContinuations_four hlen).mpr hall
        omega
      simp only [hnone, not_false_iff, iff_true]
      split <;> omega
    next hp =>
      split
      next hstart =>
        rw [Bool.and_eq_true, decide_eq_true_eq] at hstart
        rw [FourContinuations, Nat.zero_add]
        constructor
        · rintro h ⟨hlen, -⟩
          omega
        · intro h
          by_contra hlong
          have hlen : seg.length = 4 := by omega
          exact h ⟨hlen, (trailingContinuations_four hlen).mp (by omega)⟩
      next hstart =>
        have hnone : ¬FourContinuations seg := by
          rintro ⟨hlen, hall⟩
          have hfour := (trailingContinuations_four hlen).mpr hall
          apply hstart
          have hzero : seg.length - trailingContinuations seg = 0 := by omega
          rw [hzero, Bool.and_eq_true, decide_eq_true_eq, List.getD_eq_getElem _ _ (by omega)]
          exact ⟨rfl, hall _ (List.getElem_mem _)⟩
        have hneed := utf8ExpectedLen_le (seg.getD (seg.length - trailingContinuations seg - 1) 0)
        simp only [hnone, not_false_iff, iff_true]
        split <;> omega

/-! ## Channels -/

/-- What a stream shows text of, each up to its own end. -/
inductive StreamPath where
  /-- All of the text. -/
  | plain
  /-- The reasoning. A tool marker ends it where the stream looks for one. -/
  | thinking (hasTools : Bool)
  | text (hasTools : Bool)
  /-- The value of a parameter. -/
  | value (style : DsmlStyle) (isString : Bool)

/-- How much of the bytes in sight an update sends, and whether the channel ends there. -/
def update : StreamPath → Bytes → Bool → Nat × Bool
  | .plain, seg, final => if final then (seg.length, true) else (utf8StreamSafeLen seg false, false)
  | .thinking hasTools, seg, final =>
    match strstr thinkClose seg, if hasTools then findAnyToolStart seg else none with
    | some (reasoning, _), _ => (reasoning.length, true)
    | none, some (reasoning, _) => (reasoning.length, true)
    | none, none =>
      if final then (seg.length, true) else (reasoningSafeLimit seg hasTools (thinkClose.length - 1), false)
  | .text hasTools, seg, final =>
    (textStreamSafeLimit seg hasTools final, (if hasTools then findAnyToolStart seg else none).isSome || final)
  | .value style isString, seg, _ =>
    match strstr (dsmlSyntax style).paramEnd seg with
    | some (value, _) => (value.length, true)
    | none => (toolParamValueStreamSafeLen (dsmlSyntax style).paramEnd isString seg, false)

/-- `</think>` and the tool markers are searched for in all of the text so far, the end
    of a value only in what no stop string may begin in. -/
def searchesAll : StreamPath → Bool
  | .thinking _ => true
  | .text _ => true
  | _ => false

/-- What an update has in sight: the limits are for the allowed part only. -/
def inSight (p : StreamPath) (seen : Bytes) (allowed : Nat) : Bytes :=
  if searchesAll p && (update p seen false).2 then seen else seen.take allowed

/-- The deltas of a channel over the text not sent yet: at each update the text has `m`
    bytes, and `n` of them may be sent; the last one has all of it. Empty deltas are
    not sent. -/
def deltas (p : StreamPath) : (cuts : List (Nat × Nat)) → (sent : Nat) → (rest : Bytes) → List Bytes
  | [], _, rest => [rest.take (update p rest true).1]
  | (m, n) :: cuts, sent, rest =>
    let r := update p (inSight p (rest.take (m - sent)) (n - sent)) false
    if r.2 then [rest.take r.1] else rest.take r.1 :: deltas p cuts (sent + r.1) (rest.drop r.1)

/-- The bytes of a text that belong to a channel that starts with it. A tool marker in
    the reasoning ends it unless its closing tag is in sight first. -/
def Body : StreamPath → Bytes → Bytes → Prop
  | .plain, full, b => b = full
  | .thinking hasTools, full, b =>
    (∃ r, strstr thinkClose full = some (b, r)) ∨ (hasTools = true ∧ ∃ r, findAnyToolStart full = some (b, r)) ∨
      (strstr thinkClose full = none ∧ (hasTools = true → findAnyToolStart full = none) ∧ b = full)
  | .text hasTools, full, b =>
    match if hasTools then findAnyToolStart full else none with
    | some (before, _) => b = trimToolSeparatorWs before
    | none => b = full
  | .value style _, full, b => ∀ v r, strstr (dsmlSyntax style).paramEnd full = some (v, r) → b = v

/-! ## Ends -/

/-- What the searches for an end have in common. -/
structure Finder (f : Bytes → Option (Bytes × Bytes)) : Prop where
  sound : ∀ {s b r}, f s = some (b, r) → s = b ++ r
  seen : ∀ (u : Bytes) {s b r}, f s = some (b, r) → f (s ++ u) = some (b, r ++ u)
  drop : ∀ {k : Nat} {s b r}, f s = some (b, r) → k ≤ b.length → f (s.drop k) = some (b.drop k, r)
  none_drop : ∀ {s}, f s = none → ∀ k, f (s.drop k) = none

theorem finder_strstr (lit : Bytes) : Finder (strstr lit) where
  sound h := (strstr_sound h).1
  seen u := fun h => strstr_seen u h
  drop h hk := strstr_drop h hk
  none_drop := by
    intro s h k
    cases hd : strstr lit (s.drop k) with
    | none => rfl
    | some r =>
      obtain ⟨hs, hlit⟩ := strstr_sound hd
      obtain ⟨x, hx⟩ := startsWith_iff.mp hlit
      apply absurd h
      apply strstr_of_infix
      refine ⟨s.take k ++ r.1, x, ?_⟩
      rw [List.append_assoc, List.append_assoc, ← hx, ← hs, List.take_append_drop]

theorem finder_tool : Finder findAnyToolStart where
  sound h := (findAnyToolStart_sound h).1
  seen u := fun h => findAnyToolStart_seen u h
  drop h hk := findAnyToolStart_drop h hk
  none_drop := fun h k => findAnyToolStart_none_drop h k

/-- An end is found alike in the part that is not sent yet. -/
theorem Finder.unsent {f : Bytes → Option (Bytes × Bytes)} (hf : Finder f) {rest : Bytes} {k : Nat}
    (hk : ∀ b r, f rest = some (b, r) → k ≤ b.length) :
    f rest = (f (rest.drop k)).map fun r => (rest.take k ++ r.1, r.2) := by
  cases h : f rest with
  | none => rw [hf.none_drop h k]; rfl
  | some r =>
    obtain ⟨b, r⟩ := r
    have hkb := hk b r h
    rw [hf.drop h hkb, Option.map_some, hf.sound h, List.take_append_of_le_length hkb, List.take_append_drop]

/-- An end that is not in sight begins behind all but the last bytes in sight. -/
theorem hold_before {l y t seg : Bytes} (hl : (60 : UInt8) ∉ l) (hseg : seg <+: t ++ (60 :: l ++ y))
    (hnone : strstr (60 :: l) seg = none) : seg.length - l.length ≤ t.length := by
  rcases value_in_sight hl hseg hnone with ht | ⟨q, rfl, hpart, -⟩
  · have := ht.length_le
    omega
  · rw [partialOf, Bool.and_eq_true, decide_eq_true_eq, List.length_cons, List.length_cons] at hpart
    rw [List.length_append, List.length_cons]
    omega

theorem trimmed_append {x y : Bytes} (h : x.length ≤ trimmedLen (x ++ y)) :
    trimToolSeparatorWs (x ++ y) = x ++ trimToolSeparatorWs y := by
  induction y using List.reverseRecOn with
  | nil =>
    rw [List.append_nil] at h ⊢
    have hprefix := List.rdropWhile_prefix isSpace x
    have hnil : trimToolSeparatorWs [] = [] := rfl
    rw [hnil, List.append_nil]
    exact hprefix.eq_of_length_le h
  | append_singleton y c ih =>
    rw [trimmedLen] at h
    rw [← List.append_assoc] at h ⊢
    by_cases hc : isSpace c = true
    · rw [trimToolSeparatorWs, List.rdropWhile_concat_pos _ _ _ hc] at h ⊢
      rw [trimToolSeparatorWs, List.rdropWhile_concat_pos _ _ _ hc]
      exact ih h
    · rw [trimToolSeparatorWs, List.rdropWhile_concat_neg _ _ _ hc, trimToolSeparatorWs,
        List.rdropWhile_concat_neg _ _ _ hc, List.append_assoc]

/-! ## Updates -/

theorem reasoningSafeLimit_close {seg rest b r : Bytes} {hasTools : Bool} (hseg : seg <+: rest)
    (hnone : strstr thinkClose seg = none) (hmark : hasTools = true → findAnyToolStart seg = none)
    (h : strstr thinkClose rest = some (b, r)) :
    reasoningSafeLimit seg hasTools (thinkClose.length - 1) ≤ b.length := by
  obtain ⟨l, hl, h60, hlen⟩ := thinkClose_shape
  obtain ⟨hrest, hstart⟩ := strstr_sound h
  obtain ⟨y, rfl⟩ := startsWith_iff.mp hstart
  have hhold : thinkClose.length - 1 = l.length := by rw [hl, List.length_cons, Nat.add_sub_cancel]
  rw [hl] at hnone hrest
  rw [hrest] at hseg
  rw [reasoningSafeLimit]
  split
  next htools => exact textStreamSafeLimit_before h60 hlen hseg hnone (hmark htools)
  next =>
    have hle := utf8StreamSafeLen_le (seg.take (seg.length - (thinkClose.length - 1))) false
    have hbefore := hold_before h60 hseg hnone
    rw [List.length_take] at hle
    omega

theorem reasoningSafeLimit_tool {seg rest b r : Bytes} (hseg : seg <+: rest) (hmark : findAnyToolStart seg = none)
    (h : findAnyToolStart rest = some (b, r)) (hold : Nat) : reasoningSafeLimit seg true hold ≤ b.length := by
  obtain ⟨u, rfl⟩ := hseg
  have htrimmed := textStreamSafeLimit_trimmed hmark h
  exact Nat.le_trans htrimmed (List.rdropWhile_prefix isSpace b).length_le

theorem toolParamValue_before {seg rest v r : Bytes} {style : DsmlStyle} (isString : Bool) (hseg : seg <+: rest)
    (hnone : strstr (dsmlSyntax style).paramEnd seg = none) (h : strstr (dsmlSyntax style).paramEnd rest = some (v, r)) :
    toolParamValueStreamSafeLen (dsmlSyntax style).paramEnd isString seg ≤ v.length := by
  obtain ⟨l, hl, h60⟩ := paramEnd_shape style
  obtain ⟨hrest, hstart⟩ := strstr_sound h
  obtain ⟨y, rfl⟩ := startsWith_iff.mp hstart
  rw [hl] at hnone hrest ⊢
  rw [hrest] at hseg
  exact (toolParamValue_limit isString h60 hseg hnone).2.1

/-- The first `k` bytes stop before every end of the channel. -/
def ShortOf : StreamPath → Bytes → Nat → Prop
  | .thinking hasTools, rest, k => (∀ b r, strstr thinkClose rest = some (b, r) → k ≤ b.length) ∧
      (hasTools = true → ∀ b r, findAnyToolStart rest = some (b, r) → k ≤ b.length)
  | .text hasTools, rest, k => hasTools = true → ∀ b r, findAnyToolStart rest = some (b, r) → k ≤ trimmedLen b
  | .value style _, rest, k => ∀ v r, strstr (dsmlSyntax style).paramEnd rest = some (v, r) → k ≤ v.length
  | .plain, _, _ => True

theorem update_short {p : StreamPath} {seg rest : Bytes} (hseg : seg <+: rest) (hon : (update p seg false).2 = false) :
    ShortOf p rest (update p seg false).1 := by
  cases p with
  | plain => trivial
  | thinking hasTools =>
    simp only [update] at hon ⊢
    cases hclose : strstr thinkClose seg with
    | some r =>
      rw [hclose] at hon
      cases hon
    | none =>
      cases hmark : (if hasTools = true then findAnyToolStart seg else none) with
      | some r =>
        rw [hclose, hmark] at hon
        cases hon
      | none =>
        simp only [Bool.false_eq_true, if_false]
        have htool : hasTools = true → findAnyToolStart seg = none := fun h => by rwa [if_pos h] at hmark
        refine ⟨fun b r h => reasoningSafeLimit_close hseg hclose htool h, fun h b r hr => ?_⟩
        rw [h]
        exact reasoningSafeLimit_tool hseg (htool h) hr _
  | text hasTools =>
    intro htools a y h
    subst htools
    have hmark : findAnyToolStart seg = none := by simpa [update] using hon
    obtain ⟨u, rfl⟩ := hseg
    exact textStreamSafeLimit_trimmed hmark h
  | value style isString =>
    intro v r hv
    simp only [update] at hon ⊢
    cases hend : strstr (dsmlSyntax style).paramEnd seg with
    | some r =>
      rw [hend] at hon
      cases hon
    | none => exact toolParamValue_before isString hseg hend hv

/-- What stops before every end belongs to the channel, and the rest of the channel is
    what belongs to it from there. -/
theorem ShortOf.body {p : StreamPath} {rest b : Bytes} {k : Nat} (h : ShortOf p rest k) (hb : Body p (rest.drop k) b) :
    Body p rest (rest.take k ++ b) := by
  cases p with
  | plain =>
    obtain rfl : b = rest.drop k := hb
    exact List.take_append_drop _ _
  | thinking hasTools =>
    have hfind := (finder_strstr thinkClose).unsent h.1
    have hfindTool : hasTools = true → findAnyToolStart rest = _ := fun htools => finder_tool.unsent (h.2 htools)
    rcases hb with ⟨r, hr⟩ | ⟨htools, r, hr⟩ | ⟨hno, hnoTool, rfl⟩
    · exact .inl ⟨r, by rw [hfind, hr]; rfl⟩
    · exact .inr (.inl ⟨htools, r, by rw [hfindTool htools, hr]; rfl⟩)
    · exact .inr (.inr ⟨by rw [hfind, hno]; rfl, fun h => by rw [hfindTool h, hnoTool h]; rfl, List.take_append_drop _ _⟩)
  | text hasTools =>
    cases hasTools with
    | false =>
      obtain rfl : b = rest.drop k := hb
      exact List.take_append_drop _ _
    | true =>
      have hfind := finder_tool.unsent fun a y hr =>
        Nat.le_trans (h rfl a y hr) (List.rdropWhile_prefix isSpace a).length_le
      simp only [Body, if_true] at hb ⊢
      cases hrest : findAnyToolStart (rest.drop k) with
      | none =>
        rw [hrest] at hb hfind
        rw [hfind]
        dsimp only [Option.map_none] at hb ⊢
        rw [hb, List.take_append_drop]
      | some r =>
        obtain ⟨a, y⟩ := r
        rw [hrest] at hb hfind
        dsimp only [Option.map_some] at hb hfind
        have hlen := h rfl _ _ hfind
        rw [hfind]
        dsimp only
        rw [hb, trimmed_append]
        exact Nat.le_trans (List.length_take_le _ _) hlen
  | value style isString =>
    intro v r hv
    have hle := h v r hv
    have hrest := hb _ _ ((finder_strstr _).drop hv hle)
    rw [hrest, (finder_strstr _).sound hv, List.take_append_of_le_length hle, List.take_append_drop]

/-- What an update that ends a channel sends is all that was left of it. -/
theorem update_ends {p : StreamPath} {seg rest : Bytes} {final : Bool} (hseg : seg <+: rest)
    (hfinal : final = true → seg = rest) (hend : (update p seg final).2 = true) :
    Body p rest (rest.take (update p seg final).1) := by
  obtain ⟨u, rfl⟩ := hseg
  have hall : final = true → (seg ++ u).take seg.length = seg ++ u := fun h => by
    rw [List.take_left, ← hfinal h]
  cases p with
  | plain =>
    cases final with
    | false => cases hend
    | true => exact hall rfl
  | thinking hasTools =>
    simp only [update] at hend ⊢
    cases hclose : strstr thinkClose seg with
    | some r =>
      obtain ⟨b, r⟩ := r
      refine .inl ⟨r ++ u, ?_⟩
      rw [(finder_strstr _).seen u hclose]
      simp [(finder_strstr _).sound hclose]
    | none =>
      cases hmark : (if hasTools = true then findAnyToolStart seg else none) with
      | some r =>
        obtain ⟨b, r⟩ := r
        have htools : hasTools = true := by
          by_contra h
          rw [if_neg h] at hmark
          cases hmark
        rw [if_pos htools] at hmark
        refine .inr (.inl ⟨htools, r ++ u, ?_⟩)
        rw [finder_tool.seen u hmark]
        simp [finder_tool.sound hmark]
      | none =>
        rw [hclose, hmark] at hend
        cases final with
        | false => cases hend
        | true =>
          refine .inr (.inr ⟨by rw [← hfinal rfl, hclose], fun h => ?_, hall rfl⟩)
          rw [← hfinal rfl]
          rwa [if_pos h] at hmark
  | text hasTools =>
    simp only [update, Body] at hend ⊢
    cases hmark : (if hasTools = true then findAnyToolStart seg else none) with
    | some r =>
      obtain ⟨a, y⟩ := r
      have htools : hasTools = true := by
        by_contra h
        rw [if_neg h] at hmark
        cases hmark
      subst htools
      rw [if_pos rfl] at hmark
      rw [if_pos rfl, finder_tool.seen u hmark, textStreamSafeLimit, if_neg (by decide), hmark]
      have hprefix := List.rdropWhile_prefix isSpace a
      have hlen : utf8StreamSafeLen (a.take (trimmedLen a)) true = trimmedLen a := by
        rw [utf8StreamSafeLen, Bool.true_or, if_pos rfl, List.length_take]
        exact Nat.min_eq_left hprefix.length_le
      show (seg ++ u).take (utf8StreamSafeLen (a.take (trimmedLen a)) true) = trimToolSeparatorWs a
      have hle : trimmedLen a ≤ a.length := hprefix.length_le
      rw [hlen, finder_tool.sound hmark, List.append_assoc, List.take_append_of_le_length hle]
      exact (List.prefix_iff_eq_take.mp hprefix).symm
    | none =>
      rw [hmark] at hend
      cases final with
      | false => cases hend
      | true =>
        have hlimit : textStreamSafeLimit seg hasTools true = seg.length := by
          rw [textStreamSafeLimit]
          cases hasTools with
          | false => simp [utf8StreamSafeLen]
          | true =>
            rw [if_pos rfl] at hmark
            simp [hmark, utf8StreamSafeLen]
        have hfull : (if hasTools = true then findAnyToolStart (seg ++ u) else none) = none := by
          rw [← hfinal rfl, hmark]
        rw [hfull, hlimit]
        exact hall rfl
  | value style isString =>
    intro v r hv
    simp only [update] at hend ⊢
    cases hclose : strstr (dsmlSyntax style).paramEnd seg with
    | none =>
      rw [hclose] at hend
      cases hend
    | some x =>
      obtain ⟨w, x⟩ := x
      rw [(finder_strstr _).seen u hclose] at hv
      cases hv
      simp [(finder_strstr _).sound hclose]

/-- The last update sends all that is left, but of a value only what has ended. -/
theorem final_body (p : StreamPath) (rest : Bytes) : Body p rest (rest.take (update p rest true).1) := by
  by_cases hend : (update p rest true).2 = true
  · exact update_ends (List.prefix_refl _) (fun _ => rfl) hend
  · cases p with
    | plain => exact absurd rfl hend
    | text hasTools => exact absurd (Bool.or_true _) hend
    | thinking hasTools =>
      refine absurd ?_ hend
      rw [update]
      split <;> rfl
    | value style isString =>
      intro v r hv
      refine absurd ?_ hend
      rw [update, hv]

/-! ## Whole characters -/

theorem whole_tag {cs : List Char} {b r : Bytes} (h : utf8Chars cs = b ++ 60 :: r) : Whole cs b.length := by
  apply whole_of_byte
  rw [h, List.getD_append_right _ _ _ _ (Nat.le_refl _), Nat.sub_self, List.getD_cons_zero]
  decide

theorem whole_close {cs : List Char} {b r : Bytes} (h : strstr thinkClose (utf8Chars cs) = some (b, r)) :
    Whole cs b.length := by
  obtain ⟨l, hl, -, -⟩ := thinkClose_shape
  obtain ⟨hs, hstart⟩ := strstr_sound h
  obtain ⟨y, rfl⟩ := startsWith_iff.mp hstart
  rw [hl] at hs
  exact whole_tag hs

theorem whole_tool {cs : List Char} {b r : Bytes} (h : findAnyToolStart (utf8Chars cs) = some (b, r)) :
    Whole cs b.length := by
  obtain ⟨hs, style, hstyle⟩ := findAnyToolStart_sound h
  obtain ⟨y, rfl⟩ := startsWith_iff.mp (markerStyle_some hstyle)
  obtain ⟨l, hl, -, -⟩ := marker_shape style
  rw [hl] at hs
  exact whole_tag hs

/-- The blanks before a marker are characters. -/
theorem whole_trimmed {cs : List Char} {b r : Bytes} (h : findAnyToolStart (utf8Chars cs) = some (b, r)) :
    Whole cs (trimmedLen b) := by
  have hle : trimmedLen b ≤ b.length := (List.rdropWhile_prefix isSpace b).length_le
  rcases Nat.lt_or_ge (trimmedLen b) b.length with hlt | hge
  · apply whole_of_byte
    have hspace : isSpace (b.getD (trimmedLen b) 0) = true := by
      by_contra hno
      rw [Bool.not_eq_true, List.getD_eq_getElem _ _ hlt] at hno
      exact Nat.lt_irrefl _ (lt_trimmedLen hlt hno)
    rw [(finder_tool.sound h), List.getD_append _ _ _ _ hlt]
    by_contra hcont
    rw [Bool.not_eq_false] at hcont
    rw [isSpace_high (isContinuation_ascii hcont)] at hspace
    cases hspace
  · rw [Nat.le_antisymm hle hge]
    exact whole_tool h

/-- A limit that is not the end of a channel is one for UTF-8. -/
theorem limit_utf8 (p : StreamPath) (seg : Bytes) (hon : (update p seg false).2 = false) :
    ∃ n, (update p seg false).1 = utf8StreamSafeLen (seg.take n) false := by
  have htext : ∀ hasTools, (hasTools = true → findAnyToolStart seg = none) →
      ∃ n, textStreamSafeLimit seg hasTools false = utf8StreamSafeLen (seg.take n) false := by
    intro hasTools hmark
    cases hasTools with
    | false => exact ⟨seg.length, by rw [List.take_length]; rfl⟩
    | true =>
      rw [textStreamSafeLimit, if_neg (by decide), hmark rfl]
      dsimp only
      rw [if_neg Bool.false_ne_true]
      exact ⟨_, rfl⟩
  cases p with
  | plain => exact ⟨seg.length, by rw [List.take_length]; rfl⟩
  | thinking hasTools =>
    simp only [update] at hon ⊢
    cases hclose : strstr thinkClose seg with
    | some r =>
      rw [hclose] at hon
      cases hon
    | none =>
      cases hmark : (if hasTools = true then findAnyToolStart seg else none) with
      | some r =>
        rw [hclose, hmark] at hon
        cases hon
      | none =>
        simp only [Bool.false_eq_true, if_false, reasoningSafeLimit]
        split
        next h => exact htext true fun _ => by rwa [if_pos h] at hmark
        next => exact ⟨_, rfl⟩
  | text hasTools =>
    refine htext hasTools fun h => ?_
    subst h
    simpa [update] using hon
  | value style isString =>
    simp only [update] at hon ⊢
    cases hend : strstr (dsmlSyntax style).paramEnd seg with
    | some r =>
      rw [hend] at hon
      cases hon
    | none =>
      dsimp only
      rw [toolParamValueStreamSafeLen]
      exact ⟨_, rfl⟩

theorem whole_limit {p : StreamPath} {cs : List Char} {n : Nat} (hon : (update p ((utf8Chars cs).take n) false).2 = false) :
    Whole cs (update p ((utf8Chars cs).take n) false).1 := by
  obtain ⟨m, hm⟩ := limit_utf8 p _ hon
  rw [hm, List.take_take]
  exact (utf8StreamSafeLen_chars cs (min m n)).1

/-- What an update sends of a valid text is whole characters. -/
theorem update_whole (p : StreamPath) (cs : List Char) (n : Nat) (final : Bool)
    (hfinal : final = true → (utf8Chars cs).take n = utf8Chars cs) : Whole cs (update p ((utf8Chars cs).take n) final).1 := by
  have hfound : ∀ {f : Bytes → Option (Bytes × Bytes)} {b r}, Finder f → f ((utf8Chars cs).take n) = some (b, r) →
      ∃ r, f (utf8Chars cs) = some (b, r) := by
    intro f b r hf h
    have hseen := hf.seen ((utf8Chars cs).drop n) h
    rw [List.take_append_drop] at hseen
    exact ⟨_, hseen⟩
  have hfull : final = true → Whole cs ((utf8Chars cs).take n).length := fun h => by
    rw [hfinal h]
    exact whole_all cs
  cases p with
  | plain =>
    cases final with
    | false => exact whole_limit rfl
    | true => exact hfull rfl
  | thinking hasTools =>
    cases hclose : strstr thinkClose ((utf8Chars cs).take n) with
    | some r =>
      obtain ⟨r, hr⟩ := hfound (finder_strstr _) hclose
      simp only [update, hclose]
      exact whole_close hr
    | none =>
      cases hmark : (if hasTools = true then findAnyToolStart ((utf8Chars cs).take n) else none) with
      | some r =>
        have htools : hasTools = true := by
          by_contra h
          rw [if_neg h] at hmark
          cases hmark
        simp only [update, hclose, hmark]
        rw [if_pos htools] at hmark
        obtain ⟨r, hr⟩ := hfound finder_tool hmark
        exact whole_tool hr
      | none =>
        cases final with
        | false => exact whole_limit (by simp [update, hclose, hmark])
        | true =>
          simp only [update, hclose, hmark, if_true]
          exact hfull rfl
  | text hasTools =>
    cases hmark : (if hasTools = true then findAnyToolStart ((utf8Chars cs).take n) else none) with
    | some r =>
      obtain ⟨a, y⟩ := r
      have htools : hasTools = true := by
        by_contra h
        rw [if_neg h] at hmark
        cases hmark
      subst htools
      rw [if_pos rfl] at hmark
      obtain ⟨r, hr⟩ := hfound finder_tool hmark
      have hlen : utf8StreamSafeLen (a.take (trimmedLen a)) true = trimmedLen a := by
        rw [utf8StreamSafeLen, Bool.true_or, if_pos rfl, List.length_take]
        exact Nat.min_eq_left (List.rdropWhile_prefix isSpace a).length_le
      have hlimit : (update (.text true) ((utf8Chars cs).take n) final).1 = trimmedLen a := by
        show textStreamSafeLimit _ true final = _
        rw [textStreamSafeLimit, if_neg (by decide), hmark]
        exact hlen
      rw [hlimit]
      exact whole_trimmed hr
    | none =>
      cases final with
      | false => exact whole_limit (by simp [update, hmark])
      | true =>
        have hlimit : (update (.text hasTools) ((utf8Chars cs).take n) true).1 = ((utf8Chars cs).take n).length := by
          show textStreamSafeLimit _ hasTools true = _
          rw [textStreamSafeLimit]
          cases hasTools with
          | false => simp [utf8StreamSafeLen]
          | true =>
            rw [if_pos rfl] at hmark
            simp [hmark, utf8StreamSafeLen]
        rw [hlimit]
        exact hfull rfl
  | value style isString =>
    cases hend : strstr (dsmlSyntax style).paramEnd ((utf8Chars cs).take n) with
    | some r =>
      obtain ⟨v, r⟩ := r
      obtain ⟨r, hr⟩ := hfound (finder_strstr _) hend
      obtain ⟨l, hl, -⟩ := paramEnd_shape style
      obtain ⟨hs, hstart⟩ := strstr_sound hr
      obtain ⟨y, rfl⟩ := startsWith_iff.mp hstart
      simp only [update, hend]
      rw [hl] at hs
      exact whole_tag hs
    | none =>
      have hsame : update (.value style isString) ((utf8Chars cs).take n) final =
          update (.value style isString) ((utf8Chars cs).take n) false := rfl
      rw [hsame]
      exact whole_limit (by simp [update, hend])

/-! ## Streams -/

/-- The deltas of a channel over valid text: whole characters each, one behind the
    other, and all of what belongs to the channel. -/
structure Streamed (p : StreamPath) (full : Bytes) (ds : List Bytes) : Prop where
  whole : ∀ d ∈ ds, ∃ a, d = utf8Chars a
  contiguous : ds.flatten <+: full
  body : Body p full ds.flatten

theorem inSight_take (p : StreamPath) (seen : Bytes) (allowed : Nat) : ∃ k, inSight p seen allowed = seen.take k := by
  rw [inSight]
  split
  · exact ⟨seen.length, List.take_length.symm⟩
  · exact ⟨allowed, rfl⟩

theorem deltas_streamed (p : StreamPath) (cs : List Char) (cuts : List (Nat × Nat)) (sent : Nat) :
    Streamed p (utf8Chars cs) (deltas p cuts sent (utf8Chars cs)) := by
  -- on the updates; each leaves a text of whole characters for the others
  induction cuts generalizing sent cs with
  | nil =>
    have hall : (utf8Chars cs).take (utf8Chars cs).length = utf8Chars cs := List.take_length
    have hwhole := update_whole p cs (utf8Chars cs).length true fun _ => hall
    rw [hall] at hwhole
    obtain ⟨a, b, -, htake⟩ := hwhole
    refine ⟨fun d hd => ⟨a, ?_⟩, ?_, ?_⟩
    · rw [deltas, List.mem_singleton] at hd
      rw [hd, htake]
    · rw [deltas, List.flatten_singleton]
      exact List.take_prefix _ _
    · rw [deltas, List.flatten_singleton]
      exact final_body p _
  | cons cut cuts ih =>
    obtain ⟨m, n⟩ := cut
    obtain ⟨k, hsight⟩ := inSight_take p ((utf8Chars cs).take (m - sent)) (n - sent)
    rw [List.take_take] at hsight
    generalize min k (m - sent) = i at hsight
    obtain ⟨a, b, hcs, htake⟩ := update_whole p cs i false (fun h => by cases h)
    have hdelta : ∃ a, (utf8Chars cs).take (update p ((utf8Chars cs).take i) false).1 = utf8Chars a := ⟨a, htake⟩
    rw [deltas, hsight]
    split
    next hend =>
      refine ⟨fun d hd => ?_, ?_, ?_⟩
      · rw [List.mem_singleton] at hd
        rw [hd]
        exact hdelta
      · rw [List.flatten_singleton]
        exact List.take_prefix _ _
      · rw [List.flatten_singleton]
        exact update_ends (List.take_prefix _ _) (fun h => by cases h) hend
    next hon =>
      rw [Bool.not_eq_true] at hon
      generalize hk : (update p ((utf8Chars cs).take i) false).1 = k at htake hdelta
      have hrest : (utf8Chars cs).drop k = utf8Chars b := by
        have hsplit := List.take_append_drop k (utf8Chars cs)
        rw [htake] at hsplit
        have hboth := hsplit.trans (by rw [hcs, utf8Chars_append])
        exact List.append_cancel_left hboth
      have hnext := ih b (sent + k)
      rw [hrest]
      refine ⟨fun d hd => ?_, ?_, ?_⟩
      · rcases List.mem_cons.mp hd with rfl | hd
        · exact hdelta
        · exact hnext.whole d hd
      · rw [List.flatten_cons]
        obtain ⟨u, hu⟩ := hnext.contiguous
        refine ⟨u, ?_⟩
        rw [List.append_assoc, hu, ← hrest, List.take_append_drop]
      · rw [List.flatten_cons]
        have hbody := hnext.body
        rw [← hrest] at hbody ⊢
        rw [← hk] at hbody ⊢
        exact (update_short (List.take_prefix _ _) hon).body hbody

/-- The phases of an OpenAI stream send what the update of their channel does. -/
theorem textPhase_sends (hasTools : Bool) (raw : Bytes) (final : Bool) (st : OpenaiStream) :
    (textPhase hasTools raw final st).2 = emitText .content
      ((raw.drop st.emitPos).take (update (.text hasTools) (raw.drop st.emitPos) final).1) := by
  rw [textPhase]
  split <;> rfl

theorem thinkingPhase_sends (hasTools : Bool) (raw : Bytes) (final : Bool) (st : OpenaiStream)
    (hchecked : st.checkedThinkPrefix = true) :
    (thinkingPhase hasTools raw final st).2 = emitText .reasoning
      ((raw.drop st.emitPos).take (update (.thinking hasTools) (raw.drop st.emitPos) final).1) := by
  have hfound : ∀ {f : Bytes → Option (Bytes × Bytes)} {s b r}, Finder f → f s = some (b, r) → s.take b.length = b := by
    intro f s b r hf h
    rw [hf.sound h, List.take_left]
  rw [thinkingPhase, checkThinkPrefix, if_pos hchecked]
  simp only [update]
  cases hclose : strstr thinkClose (raw.drop st.emitPos) with
  | some r =>
    dsimp only
    rw [hfound (finder_strstr _) hclose]
  | none =>
    cases hmark : (if hasTools = true then findAnyToolStart (raw.drop st.emitPos) else none) with
    | some r =>
      have htools : hasTools = true := by
        by_contra h
        rw [if_neg h] at hmark
        cases hmark
      rw [if_pos htools] at hmark
      rw [hfound finder_tool hmark]
    | none =>
      cases final with
      | false => rfl
      | true =>
        simp only [if_true]
        rw [List.take_length]

end Ds4.Server
