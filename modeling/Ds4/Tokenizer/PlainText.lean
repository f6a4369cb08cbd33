import Ds4.Tokenizer.Lossless

/- Plain BPE makes no special token: whatever the text, `bpe_tokenize_text` emits
   tokens of ordinary text only.

   What is proved, bottom up:
     1. a token of a piece stands for bytes inside the piece (`bpeEmitPiece_mem`);
     2. no piece of the pre-tokenizer holds a letter run closed by '>'
        (`pieces_open`): one of the last bytes before a '>' is not a letter;
     3. so no piece holds the text of a special token (`bpeTokenizeText_plain`):
        those with U+FF5C are not in the byte alphabet, the other two end in "think>".
   The number of tokens is bounded by the length of the text (`length_le_text`). -/
namespace Ds4
open Bytes

section
variable {tokens merges : List Bytes} {v : Vocab}

/-! ## Tokens of a piece -/

theorem mergeAt_ne_nil {i : Nat} {sym : List Bytes} (hlt : i + 1 < sym.length) (hne : ∀ x ∈ sym, x ≠ []) :
    ∀ x ∈ mergeAt i sym, x ≠ [] := by
  obtain ⟨pre, a, b, post, rfl, hmerge, -, -⟩ := mergeAt_eq hlt
  rw [hmerge]
  intro x hx
  rcases List.mem_append.mp hx with hx | hx
  · exact hne x (by simp [hx])
  · rcases List.mem_cons.mp hx with rfl | hx
    · intro h
      exact hne a (by simp) (List.append_eq_nil_iff.mp h).1
    · exact hne x (by simp [hx])

theorem mergeSymbols_ne_nil (sym : List Bytes) (hne : ∀ x ∈ sym, x ≠ []) : ∀ x ∈ mergeSymbols v sym, x ≠ [] := by
  fun_induction mergeSymbols v sym with
  | case1 sym _ => exact hne
  | case2 sym best hbest ih =>
    apply ih
    rcases bestMerge_lt v sym none 0 best hbest with hn | ⟨-, hlt, -⟩
    · cases hn
    · exact mergeAt_ne_nil (by omega) hne

/-- Symbols that spell an encoded text are the encodings of its parts. -/
theorem infix_of_flatten {xs : List Bytes} {s : Bytes} (hflat : xs.flatten = byteEncode s)
    (hk : ∀ x ∈ xs, ∃ bs, x = byteEncode bs) {x : Bytes} (hx : x ∈ xs) :
    ∃ bs, x = byteEncode bs ∧ bs <:+: s := by
  obtain ⟨pre, post, rfl⟩ := List.append_of_mem hx
  have hspell : ∀ ys : List Bytes, (∀ y ∈ ys, ∃ bs, y = byteEncode bs) → ∃ bs, ys.flatten = byteEncode bs := by
    intro ys hys
    induction ys with
    | nil => exact ⟨[], rfl⟩
    | cons y ys ih =>
      obtain ⟨bs, hbs⟩ := hys y List.mem_cons_self
      obtain ⟨cs, hcs⟩ := ih fun z hz => hys z (List.mem_cons_of_mem _ hz)
      exact ⟨bs ++ cs, by rw [List.flatten_cons, hbs, hcs, byteEncode_append]⟩
  obtain ⟨a, ha⟩ := hspell pre fun y hy => hk y (by simp [hy])
  obtain ⟨b, hb⟩ := hspell post fun y hy => hk y (by simp [hy])
  obtain ⟨bs, rfl⟩ := hk _ hx
  refine ⟨bs, rfl, a, b, byteEncode_injective ?_⟩
  rw [← hflat, List.flatten_append, List.flatten_cons, ha, hb, byteEncode_append, byteEncode_append,
    List.append_assoc]

theorem Loaded.bpeEmitPiece_mem (hl : Loaded tokens merges v) (hc : Complete tokens merges) {piece : Bytes}
    {t : Int} (ht : t ∈ bpeEmitPiece v piece) :
    ∃ bs, bs ≠ [] ∧ bs <:+: piece ∧ tableGet v.tokenToId (byteEncode bs) = some t := by
  rw [bpeEmitPiece, splitSymbols_enc _ piece (Nat.le_refl _)] at ht
  have hk : ∀ x ∈ piece.map enc, Known tokens x := by
    intro x hx
    obtain ⟨b, -, rfl⟩ := List.mem_map.mp hx
    exact ⟨hc.bytes b, [b], by simp [byteEncode, enc]⟩
  have hne : ∀ x ∈ piece.map enc, x ≠ [] := by
    intro x hx
    obtain ⟨b, -, rfl⟩ := List.mem_map.mp hx
    exact List.length_pos_iff.mp (enc_length_pos b)
  obtain ⟨hflat, hkn⟩ := hl.mergeSymbols_sound hc _ hk
  obtain ⟨sym, hsym, ht⟩ := List.mem_flatMap.mp ht
  obtain ⟨bs, rfl, hin⟩ := infix_of_flatten (s := piece) (by rw [hflat, byteEncode, List.flatMap_def]; rfl)
    (fun x hx => (hkn x hx).2) hsym
  refine ⟨bs, ?_, hin, ?_⟩
  · rintro rfl
    exact mergeSymbols_ne_nil _ hne _ hsym rfl
  · obtain ⟨u, hu⟩ := hl.get_of_mem (hkn _ hsym).1
    rw [emitSymbol, hu] at ht
    rw [hu, List.mem_singleton.mp ht]

/-! ## No piece closes a letter run -/

/-- Somewhere in the three bytes at its end the text has a byte that is no letter. -/
def EndsOpen (a : Bytes) : Prop := ∃ c ∈ a.drop (a.length - 3), asciiAlpha c = false

/-- Every '>' of a piece is its first byte or stands behind a byte that is no letter. -/
def Open (p : Bytes) : Prop := ∀ a b, p = a ++ 62 :: b → a = [] ∨ EndsOpen a

theorem EndsOpen.append {a : Bytes} (x : Bytes) (h : EndsOpen a) : EndsOpen (x ++ a) := by
  obtain ⟨c, hc, hα⟩ := h
  refine ⟨c, ?_, hα⟩
  rw [List.drop_append, List.length_append]
  by_cases hlen : 3 ≤ a.length
  · rw [show x.length + a.length - 3 - x.length = a.length - 3 by omega]
    exact List.mem_append_right _ hc
  · rw [show x.length + a.length - 3 - x.length = 0 by omega]
    exact List.mem_append_right _ (List.mem_of_mem_drop hc)

theorem endsOpen_of_last {a : Bytes} {c : UInt8} (h : asciiAlpha c = false) : EndsOpen (a ++ [c]) :=
  EndsOpen.append a ⟨c, by simp, h⟩

/-- A piece without letters. -/
theorem open_of_noAlpha {p : Bytes} (h : ∀ c ∈ p, asciiAlpha c = false) : Open p := by
  rintro a b rfl
  rcases List.eq_nil_or_concat' a with rfl | ⟨a, c, rfl⟩
  · exact .inl rfl
  · exact .inr (endsOpen_of_last (h c (by simp)))

/-- A piece whose bytes after the first are no '>'. -/
theorem open_of_tail {c : UInt8} {p : Bytes} (h : (62 : UInt8) ∉ p) : Open (c :: p) := by
  intro a b hp
  cases a with
  | nil => exact .inl rfl
  | cons x a =>
    rw [List.cons_append, List.cons.injEq] at hp
    exact absurd (hp.2 ▸ by simp) h

/-- Which bytes are no letters, and which are no '>'. -/
theorem byte_classes : ∀ c : UInt8,
    ((¬c < 0x80 ∨ joyaiAsciiPunctSymbol c = true ∨ asciiDigit c = true ∨ asciiSpace c = true ∨ asciiNewline c = true) →
      asciiAlpha c = false) ∧
    ((asciiAlpha c = true ∨ joyaiLetterLike c = true) → c ≠ 62) := by
  apply forall_byte
  decide +kernel

theorem asciiAlpha_high {c : UInt8} (h : ¬c < 0x80) : asciiAlpha c = false := (byte_classes c).1 (.inl h)

theorem utf8Len_le (c : UInt8) : utf8LenFromFirstByte c ≤ 4 ∧ (c < 0x80 → utf8LenFromFirstByte c = 1) := by
  unfold utf8LenFromFirstByte
  refine ⟨by split_ifs <;> decide, fun h => if_pos h⟩

/-- Behind the first byte of a character stand only bytes that follow a lead byte. -/
theorem take_char_open {s : Bytes} {n : Nat} (hn : n ≤ nextUtf8Char s) {a b : Bytes}
    (h : s.take n = a ++ 62 :: b) : a = [] ∨ EndsOpen a := by
  cases a with
  | nil => exact .inl rfl
  | cons c a =>
    cases s with
    | nil => simp at h
    | cons d s =>
      have hlen := congrArg List.length h
      simp only [List.length_take, List.length_append, List.length_cons] at hlen
      have hnext : nextUtf8Char (d :: s) ≤ utf8LenFromFirstByte d := by
        unfold nextUtf8Char
        dsimp only [List.headD_cons]
        split
        · unfold utf8LenFromFirstByte; split_ifs <;> decide
        · exact Nat.le_refl _
      obtain ⟨h4, h1⟩ := utf8Len_le d
      have hcd : c = d := by
        cases n with
        | zero => simp at h
        | succ n =>
          rw [List.take_succ_cons, List.cons_append, List.cons.injEq] at h
          exact h.1.symm
      subst hcd
      have hhigh : ¬c < 0x80 := fun hlow => by have := h1 hlow; omega
      refine .inr ⟨c, ?_, asciiAlpha_high hhigh⟩
      rw [show (c :: a).length - 3 = 0 by rw [List.length_cons]; omega]
      exact List.mem_cons_self

/-- What stands in front of a '>' in two texts put together. -/
theorem open_split {x y a b : Bytes} (h : x ++ y = a ++ 62 :: b) :
    (∃ b', x = a ++ 62 :: b') ∨ ∃ a', a = x ++ a' ∧ y = a' ++ 62 :: b := by
  rcases List.append_eq_append_iff.mp h with ⟨m, rfl, hm⟩ | ⟨m, rfl, hm⟩
  · exact .inr ⟨m, rfl, hm⟩
  · cases m with
    | nil => exact .inr ⟨[], by simp, by simpa using hm.symm⟩
    | cons c m =>
      rw [List.cons_append, List.cons.injEq] at hm
      exact .inl ⟨m, by rw [← hm.1]⟩

/-- The characters a loop takes when it takes none that starts with '>'. -/
theorem consumeChars_open {q : Bytes → Bool} (hq : ∀ s, q s = true → s.headD 0 ≠ 62) :
    ∀ (fuel : Nat) (s a b : Bytes), s.take (consumeChars q fuel s) = a ++ 62 :: b → EndsOpen a
  | 0, s, a, b, h => by simp [consumeChars] at h
  | _ + 1, [], a, b, h => by simp at h
  | fuel + 1, c :: s, a, b, h => by
    rw [consumeChars] at h
    · split at h
      · next hp =>
        rw [List.take_add] at h
        rcases open_split h with ⟨b', hfirst⟩ | ⟨a', rfl, hrest⟩
        · rcases take_char_open (Nat.le_refl _) hfirst with rfl | hopen
          · have hpos := (nextUtf8Char_bounds (s := c :: s) (by simp)).1
            obtain ⟨k, hk⟩ := Nat.exists_eq_succ_of_ne_zero (Nat.pos_iff_ne_zero.mp hpos)
            rw [hk, List.take_succ_cons, List.nil_append, List.cons.injEq] at hfirst
            exact absurd hfirst.1 (hq _ hp)
          · exact hopen
        · exact (consumeChars_open hq fuel _ a' b hrest).append _
      · simp at h
    · simp

theorem noAlpha_of_span {p : UInt8 → Bool} (hp : ∀ c, p c = true → asciiAlpha c = false) (s : Bytes) :
    ∀ c ∈ s.take (spanLen p s), asciiAlpha c = false := by
  intro c hc
  rw [spanLen, ← List.prefix_iff_eq_take.mp (List.takeWhile_prefix p)] at hc
  exact hp c (List.mem_takeWhile_imp hc)

theorem asciiAlpha_of_punct (c : UInt8) (h : joyaiAsciiPunctSymbol c = true) : asciiAlpha c = false :=
  (byte_classes c).1 (.inr (.inl h))

theorem asciiAlpha_of_digit (c : UInt8) (h : asciiDigit c = true) : asciiAlpha c = false :=
  (byte_classes c).1 (.inr (.inr (.inl h)))

theorem asciiAlpha_of_space (c : UInt8) (h : asciiSpace c = true) : asciiAlpha c = false :=
  (byte_classes c).1 (.inr (.inr (.inr (.inl h))))

theorem asciiAlpha_of_newline (c : UInt8) (h : asciiNewline c = true) : asciiAlpha c = false :=
  (byte_classes c).1 (.inr (.inr (.inr (.inr h))))

theorem ne_close_of_alpha (c : UInt8) (h : asciiAlpha c = true) : c ≠ 62 := (byte_classes c).2 (.inl h)

theorem letter_head (s : Bytes) (h : joyaiLetterLike (s.headD 0) = true) : s.headD 0 ≠ 62 := (byte_classes _).2 (.inr h)

theorem cjk_head (s : Bytes) (h : joyaiCjkAt s = true) : s.headD 0 ≠ 62 := by
  intro he
  rw [joyaiCjkAt, he, if_pos (by decide)] at h
  cases h

theorem open_of_endsOpen {p : Bytes} (h : ∀ a b, p = a ++ 62 :: b → EndsOpen a) : Open p :=
  fun a b hp => .inr (h a b hp)

theorem noAlpha_take_punct (s : Bytes) : ∀ c ∈ s.take (punctLen s), asciiAlpha c = false := by
  intro c hc
  rw [punctLen, List.take_add] at hc
  rcases List.mem_append.mp hc with hc | hc
  · exact noAlpha_of_span asciiAlpha_of_punct s c hc
  · exact noAlpha_of_span asciiAlpha_of_newline _ c hc

theorem lastNewlineEnd_le_span (s : Bytes) : lastNewlineEnd s ≤ spanLen asciiSpace s := by
  unfold lastNewlineEnd spanLen
  exact Nat.sub_le _ _

theorem noAlpha_take_spaces {s : Bytes} {n : Nat} (hn : n ≤ spanLen asciiSpace s) :
    ∀ c ∈ s.take n, asciiAlpha c = false :=
  fun c hc => noAlpha_of_span asciiAlpha_of_space s c (List.take_subset_take_left s hn hc)

theorem open_ite {c : Prop} [Decidable c] {s : Bytes} {m n : Nat} (hm : c → Open (s.take m)) (hn : ¬c → Open (s.take n)) :
    Open (s.take (if c then m else n)) := by
  split
  · next h => exact hm h
  · next h => exact hn h

/-- One case for each rule. -/
theorem rule_open (s : Bytes) : Open (s.take (ruleLen s)) := by
  cases s with
  | nil => rw [List.take_nil]; exact open_of_noAlpha (by simp)
  | cons c s =>
    unfold ruleLen joyaiConsumeLetters
    dsimp only [List.headD_cons]
    refine open_ite (fun _ => ?_) fun _ => ?_
    · refine open_of_noAlpha fun x hx => noAlpha_of_span asciiAlpha_of_digit (c :: s) x ?_
      exact List.take_subset_take_left _ (Nat.min_le_right _ _) hx
    refine open_ite (fun hcjk => ?_) fun _ => ?_
    · -- a first character that is no '>', then more of its kind
      refine open_of_endsOpen fun a b hab => ?_
      have hloop := consumeChars_open cjk_head ((c :: s).length + 1) (c :: s) a b
      rw [consumeChars, if_pos hcjk] at hloop
      · exact hloop hab
      · simp
    refine open_ite (fun _ => ?_) fun _ => ?_
    · rw [Nat.add_comm, List.take_succ_cons, List.drop_one, List.tail_cons]
      refine open_of_tail fun h => ?_
      rw [spanLen, ← List.prefix_iff_eq_take.mp (List.takeWhile_prefix _)] at h
      exact ne_close_of_alpha _ (List.mem_takeWhile_imp h) rfl
    refine open_ite (fun _ => ?_) fun _ => ?_
    · exact open_of_endsOpen (consumeChars_open letter_head _ _)
    refine open_ite (fun _ => ?_) fun _ => ?_
    · rw [Nat.add_comm, List.take_succ_cons, List.drop_one, List.tail_cons]
      intro a b hab
      cases a with
      | nil => exact .inl rfl
      | cons x a =>
        rw [List.cons_append, List.cons.injEq] at hab
        exact .inr ((consumeChars_open letter_head _ _ a b hab.2).append [x])
    refine open_ite (fun hblank => ?_) fun _ => ?_
    · rw [Nat.add_comm, List.take_succ_cons, List.drop_one, List.tail_cons]
      refine open_of_noAlpha fun x hx => ?_
      rcases List.mem_cons.mp hx with rfl | hx
      · simp only [Bool.and_eq_true, decide_eq_true_eq] at hblank
        rw [hblank.1.1]
        rfl
      · exact noAlpha_take_punct s x hx
    refine open_ite (fun _ => ?_) fun _ => ?_
    · exact open_of_noAlpha (noAlpha_take_punct _)
    refine open_ite (fun _ => ?_) fun _ => ?_
    · refine open_of_noAlpha (noAlpha_take_spaces ?_)
      split
      · exact lastNewlineEnd_le_span _
      · split
        · exact Nat.sub_le _ _
        · exact Nat.le_refl _
    · exact fun a b => take_char_open (Nat.le_refl _)

theorem piece_open (s : Bytes) : Open (s.take (pieceLen s)) := by
  unfold pieceLen
  split
  · exact fun a b => take_char_open (Nat.le_refl _)
  · exact rule_open s

theorem pieces_open : ∀ (fuel : Nat) (s p : Bytes), p ∈ pieces fuel s → Open p
  | 0, _, _, h => by simp [pieces] at h
  | _ + 1, [], _, h => by simp [pieces] at h
  | fuel + 1, c :: s, p, h => by
    rw [pieces] at h
    · rcases List.mem_cons.mp h with rfl | h
      · exact piece_open _
      · exact pieces_open fuel _ p h
    · simp

/-! ## No special token -/

/-- The tokens `special_token_at` knows. -/
def isControl (v : Vocab) (t : Int) : Bool := (specials v).any fun sp => sp.2 = t

theorem isControl_iff {t : Int} : isControl v t = true ↔ ∃ sp ∈ specials v, sp.2 = t := by
  simp [isControl]

/-- The text of a special token is outside the byte alphabet or ends in a closed letter run. -/
theorem specialTexts_shape : ∀ t ∈ specialTexts, (0xef : UInt8) ∈ t ∨
    ∃ r, t = byteEncode (r ++ utf8 "think>") := by
  simp only [specialTexts, List.forall_mem_cons]
  refine ⟨.inl ?_, .inl ?_, .inl ?_, .inl ?_, .inr ⟨utf8 "<", ?_⟩, .inr ⟨utf8 "</", ?_⟩, .inl ?_, by simp⟩
  all_goals decide

theorem Open.no_close {p : Bytes} (h : Open p) (r : Bytes) : ¬(r ++ utf8 "think>") <:+: p := by
  rintro ⟨x, y, hxy⟩
  have hlast : utf8 "think>" = utf8 "th" ++ (utf8 "ink" ++ [62]) := by decide
  have hp : p = (x ++ r ++ utf8 "th" ++ utf8 "ink") ++ 62 :: y := by
    rw [← hxy, hlast]
    simp
  have hlen : (utf8 "ink").length = 3 := by decide
  rcases h _ _ hp with hnil | ⟨c, hc, hα⟩
  · rw [(List.append_eq_nil_iff.mp hnil).2] at hlen
    simp at hlen
  · rw [List.length_append, hlen, Nat.add_sub_cancel, List.drop_left] at hc
    have halpha : ∀ c ∈ utf8 "ink", asciiAlpha c = true := by decide +kernel
    rw [halpha c hc] at hα
    cases hα

/-- Plain text gives tokens of plain text. -/
theorem Loaded.bpeTokenizeText_plain (hl : Loaded tokens merges v) (hc : Complete tokens merges) (text : Bytes) :
    ∀ t ∈ bpeTokenizeText v text, isControl v t = false ∧ ds4TokenText v t ≠ [] := by
  intro t ht
  obtain ⟨p, hp, ht⟩ := List.mem_flatMap.mp ht
  obtain ⟨bs, hne, hin, hget⟩ := hl.bpeEmitPiece_mem hc ht
  refine ⟨?_, by rwa [hl.tokenText_enc hget]⟩
  rw [Bool.eq_false_iff]
  intro hctl
  obtain ⟨sp, hsp, rfl⟩ := isControl_iff.mp hctl
  obtain ⟨-, hid⟩ := hl.token_getElem hget
  obtain ⟨-, hid'⟩ := hl.token_getElem (hl.special sp hsp)
  rw [hid, Option.some.injEq] at hid'
  rcases specialTexts_shape sp.1 (mem_specialTexts hsp) with hef | ⟨r, hr⟩
  · rw [← hid'] at hef
    exact (byteEncode_not_mem bs).1 hef
  · rw [← hid'] at hr
    rw [byteEncode_injective hr] at hin
    exact (pieces_open _ _ p hp).no_close r hin

theorem length_le_text {ts : List Int} (h : ∀ t ∈ ts, ds4TokenText v t ≠ []) :
    ts.length ≤ (ts.flatMap (ds4TokenText v)).length := by
  induction ts with
  | nil => exact Nat.le_refl _
  | cons t ts ih =>
    have hpos := List.length_pos_iff.mpr (h t List.mem_cons_self)
    have := ih fun x hx => h x (List.mem_cons_of_mem _ hx)
    rw [List.flatMap_cons, List.length_append, List.length_cons]
    omega

/-- No token of a rendered text is empty. -/
theorem Loaded.scanRendered_ne_nil (hl : Loaded tokens merges v) (hc : Complete tokens merges) :
    ∀ (fuel : Nat) (s p : Bytes), ∀ t ∈ scanRendered v fuel s p, ds4TokenText v t ≠ []
  | fuel, s, [], t, ht => by
    have hspan : scanRendered v fuel s [] = tokenizeSpan v s := by cases fuel <;> rfl
    rw [hspan, tokenizeSpan] at ht
    split at ht
    · simp at ht
    · exact (hl.bpeTokenizeText_plain hc s t ht).2
  | 0, s, c :: p, t, ht => by
    rw [scanRendered, tokenizeSpan] at ht
    · split at ht
      · simp at ht
      · exact (hl.bpeTokenizeText_plain hc s t ht).2
    · simp
  | fuel + 1, s, c :: p, t, ht => by
    rw [scanRendered] at ht
    cases hsp : specialTokenAt v (c :: p) with
    | none =>
      rw [hsp] at ht
      exact hl.scanRendered_ne_nil hc fuel _ p t ht
    | some sp =>
      have hmem := List.mem_of_find?_eq_some hsp
      rw [hsp] at ht
      dsimp only at ht
      rcases List.mem_append.mp ht with ht | ht
      · rw [tokenizeSpan] at ht
        split at ht
        · simp at ht
        · exact (hl.bpeTokenizeText_plain hc s t ht).2
      · rcases List.mem_cons.mp ht with rfl | ht
        · rw [hl.special_text hmem]
          exact List.length_pos_iff.mp (specialTexts_spec sp.1 (mem_specialTexts hmem)).1
        · exact hl.scanRendered_ne_nil hc fuel [] _ t ht

/-! ## Literals -/

theorem specialTexts_free : ∀ a ∈ specialTexts, ∀ b ∈ specialTexts, a <+: b → a = b := by
  have h : ∀ a ∈ specialTexts, ∀ b ∈ specialTexts, startsWith a b = true → a = b := by decide
  exact fun a ha b hb hab => h a ha b hb (List.isPrefixOf_iff_prefix.mpr hab)

/-- A literal is found where it stands. -/
theorem Loaded.specialTokenAt_literal (hl : Loaded tokens merges v) {sp : Bytes × Int} (hsp : sp ∈ specials v)
    (rest : Bytes) : specialTokenAt v (sp.1 ++ rest) = some sp := by
  cases hf : specialTokenAt v (sp.1 ++ rest) with
  | none =>
    have hno := List.find?_eq_none.mp hf sp hsp
    exact absurd (startsWith_append sp.1 rest) hno
  | some sp' =>
    have hmem := List.mem_of_find?_eq_some hf
    have hstart : startsWith sp'.1 (sp.1 ++ rest) = true := by
      simpa using List.find?_some hf
    have htext : sp'.1 = sp.1 := by
      rcases List.prefix_or_prefix_of_prefix (List.isPrefixOf_iff_prefix.mp hstart) (List.prefix_append sp.1 rest) with h | h
      · exact specialTexts_free _ (mem_specialTexts hmem) _ (mem_specialTexts hsp) h
      · exact (specialTexts_free _ (mem_specialTexts hsp) _ (mem_specialTexts hmem) h).symm
    have hid := hl.special sp' hmem
    rw [htext, hl.special sp hsp, Option.some.injEq] at hid
    rw [Option.some.injEq]
    exact Prod.ext htext hid.symm

end
end Ds4
