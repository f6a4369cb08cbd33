import Ds4.Tokenizer.Bpe
import Mathlib.Tactic.Common

/- The tokenizer loses nothing: over a vocabulary that has every byte and the
   join of every merge pair, the token texts spell the input again.

   What is proved, bottom up:
     1. the byte alphabet is invertible (`utf8DecodeOne_enc`) and the encoded
        text splits at its symbols and decodes to the bytes (`splitSymbols_enc`,
        `decodeSymbols_enc`);
     2. merging keeps the concatenation and stays inside the vocabulary
        (`mergeSymbols_sound`), so no symbol is dropped (`bpeEmitPiece_text`);
     3. the pre-tokenizer cuts the text into non-empty pieces whose
        concatenation is the text (`pieceLen_bounds`, `pieces_flatten`);
     4. the special-token scanner adds nothing and drops nothing
        (`scanRendered_text`).

   `Complete` is the only assumption on the vocabulary: the special tokens have
   their literal texts because `vocab_load` looks them up by text. -/
namespace Ds4
open Bytes

/-! ## The byte alphabet -/

/-- The symbol of one byte. -/
def enc (b : UInt8) : Bytes := utf8Put (gpt2ByteToCodepoint b)

/-- A symbol is one ASCII byte or a two-byte sequence, decodes to its byte, and
    holds neither a space nor a lead byte of U+FF5C. -/
def EncShape (b : UInt8) (s : Bytes) : Prop :=
  (0xef : UInt8) ∉ s ∧ (32 : UInt8) ∉ s ∧
  match s with
  | [c] => c < 0x80 ∧ gpt2CodepointToByte c.toUInt32 = some b
  | [c0, c1] => ¬ c0 < 0x80 ∧ c0 &&& 0xe0 = 0xc0 ∧
      gpt2CodepointToByte (((c0 &&& 0x1f).toUInt32 <<< 6) ||| (c1 &&& 0x3f).toUInt32) = some b
  | _ => False

instance (b : UInt8) (s : Bytes) : Decidable (EncShape b s) := by
  unfold EncShape
  refine @instDecidableAnd _ _ _ (@instDecidableAnd _ _ _ ?_)
  split <;> infer_instance

theorem enc_shape : ∀ b, EncShape b (enc b) := by
  apply forall_byte
  decide +kernel

theorem utf8DecodeOne_enc (b : UInt8) (r : Bytes) :
    ∃ cp, utf8DecodeOne (enc b ++ r) = (cp, (enc b).length) ∧ gpt2CodepointToByte cp = some b := by
  have h := enc_shape b
  unfold EncShape at h
  obtain ⟨-, -, h⟩ := h
  split at h
  · next c hs => exact ⟨_, by rw [hs]; simp [utf8DecodeOne, h.1], h.2⟩
  · next c0 c1 hs =>
    obtain ⟨h1, h2, h3⟩ := h
    refine ⟨_, ?_, h3⟩
    rw [hs]
    simp [utf8DecodeOne, h1, h2]
  · exact h.elim

theorem nextUtf8Char_enc (b : UInt8) (r : Bytes) : nextUtf8Char (enc b ++ r) = (enc b).length := by
  have h := enc_shape b
  unfold EncShape at h
  obtain ⟨-, -, h⟩ := h
  split at h
  · next c hs => rw [hs]; simp [nextUtf8Char, utf8LenFromFirstByte, h.1]
  · next c0 c1 hs =>
    obtain ⟨h1, h2, -⟩ := h
    rw [hs]; simp [nextUtf8Char, utf8LenFromFirstByte, h1, h2]
  · exact h.elim

theorem enc_length_pos (b : UInt8) : 0 < (enc b).length := by
  have h := enc_shape b
  unfold EncShape at h
  obtain ⟨-, -, h⟩ := h
  split at h
  · next hs => rw [hs]; simp
  · next hs => rw [hs]; simp
  · exact h.elim

theorem byteEncode_cons (b : UInt8) (s : Bytes) : byteEncode (b :: s) = enc b ++ byteEncode s := rfl

theorem byteEncode_append (s r : Bytes) : byteEncode (s ++ r) = byteEncode s ++ byteEncode r := by
  simp [byteEncode]

theorem byteEncode_not_mem (s : Bytes) : (0xef : UInt8) ∉ byteEncode s ∧ (32 : UInt8) ∉ byteEncode s := by
  constructor <;> intro h <;> obtain ⟨b, -, hb⟩ := List.mem_flatMap.mp h
  · exact (enc_shape b).1 hb
  · exact (enc_shape b).2.1 hb

theorem splitSymbols_enc : ∀ (fuel : Nat) (s : Bytes), (byteEncode s).length ≤ fuel →
    splitSymbols fuel (byteEncode s) = s.map enc
  | 0, [], _ => rfl
  | _ + 1, [], _ => rfl
  | 0, b :: s, h => by
    have := enc_length_pos b
    rw [byteEncode_cons, List.length_append] at h
    omega
  | fuel + 1, b :: s, h => by
    have hpos := enc_length_pos b
    rw [byteEncode_cons, List.length_append] at h
    have hne : enc b ++ byteEncode s ≠ [] := by
      intro e
      rw [List.append_eq_nil_iff.mp e |>.1] at hpos
      simp at hpos
    rw [byteEncode_cons, splitSymbols, nextUtf8Char_enc, List.take_left, List.drop_left,
      splitSymbols_enc fuel s (by omega), List.map_cons]
    exact hne

theorem decodeSymbols_enc : ∀ (fuel : Nat) (s : Bytes), (byteEncode s).length ≤ fuel →
    decodeSymbols fuel (byteEncode s) = s
  | 0, [], _ => rfl
  | _ + 1, [], _ => rfl
  | 0, b :: s, h => by
    have := enc_length_pos b
    rw [byteEncode_cons, List.length_append] at h
    omega
  | fuel + 1, b :: s, h => by
    have hpos := enc_length_pos b
    rw [byteEncode_cons, List.length_append] at h
    have hne : enc b ++ byteEncode s ≠ [] := by
      intro e
      rw [List.append_eq_nil_iff.mp e |>.1] at hpos
      simp at hpos
    obtain ⟨cp, hcp, hb⟩ := utf8DecodeOne_enc b (byteEncode s)
    rw [byteEncode_cons, decodeSymbols, hcp]
    · simp only [hb, Option.toList_some, List.drop_left, List.singleton_append,
        decodeSymbols_enc fuel s (by omega : (byteEncode s).length ≤ fuel)]
    · exact hne

theorem not_literalSpecial_of_not_mem {s : Bytes} (h : (0xef : UInt8) ∉ s) :
    vocabTokenIsLiteralSpecial s = false := by
  rw [vocabTokenIsLiteralSpecial, List.any_eq_false]
  intro t ht hp
  obtain ⟨r, hr⟩ := startsWith_iff.mp hp
  obtain ⟨a, ha⟩ := (List.mem_tails _ _).mp ht
  apply h
  rw [← ha, hr]
  simp

/-! ## Tokens and their texts -/

theorem cInt_of_lt {i n : Nat} (hi : i < n) (hn : (n : Int) ≤ int32Max) : cInt i = i := by
  unfold int32Max at hn
  exact Int.bmod_eq_of_le (by omega) (by omega)

theorem mem_indexed {ss : List Bytes} {s : Bytes} {v : Int} :
    (s, v) ∈ indexed ss ↔ ∃ i, ss[i]? = some s ∧ v = cInt i := by
  simp only [indexed, List.mem_map, Prod.mk.injEq]
  constructor
  · rintro ⟨⟨t, i⟩, hm, ht, hv⟩
    exact ⟨i, ht ▸ List.mem_zipIdx_iff_getElem?.mp hm, hv.symm⟩
  · rintro ⟨i, hi, hv⟩
    exact ⟨(s, i), List.mem_zipIdx_iff_getElem?.mpr hi, rfl, hv.symm⟩

theorem mem_indexed_of_mem {ss : List Bytes} {s : Bytes} (h : s ∈ ss) : ∃ v, (s, v) ∈ indexed ss := by
  obtain ⟨i, hi⟩ := List.mem_iff_getElem?.mp h
  exact ⟨_, mem_indexed.mpr ⟨i, hi, rfl⟩⟩

theorem mem_of_mem_indexed {ss : List Bytes} {s : Bytes} {v : Int} (h : (s, v) ∈ indexed ss) : s ∈ ss := by
  obtain ⟨i, hi, -⟩ := mem_indexed.mp h
  exact List.mem_iff_getElem?.mpr ⟨i, hi⟩

/-- The vocabularies the tokenizer is lossless over: every single-byte symbol is
    a token, and so is the join of every pair of the merge table. -/
structure Complete (tokens merges : List Bytes) : Prop where
  bytes : ∀ b, enc b ∈ tokens
  joins : ∀ a b, (32 : UInt8) ∉ a → (32 : UInt8) ∉ b → a ++ 32 :: b ∈ merges → a ++ b ∈ tokens

/-- The literals of the special tokens. -/
def specialTexts : List Bytes :=
  [utf8 "<｜begin▁of▁sentence｜>", utf8 "<｜end▁of▁sentence｜>", utf8 "<｜User｜>",
    utf8 "<｜Assistant｜>", utf8 "<think>", utf8 "</think>", utf8 "｜DSML｜"]

/-- What the proofs use of a loaded vocabulary. -/
structure Loaded (tokens merges : List Bytes) (v : Vocab) : Prop where
  size : (tokens.length : Int) ≤ int32Max
  token : v.token = tokens
  tokenToId : v.tokenToId = tableFill (indexed tokens)
  mergeRank : v.mergeRank = tableFill (indexed merges)
  special : ∀ sp ∈ specials v, tableGet v.tokenToId sp.1 = some sp.2

theorem vocabLoad_loaded {tokens merges : List Bytes} {v : Vocab}
    (h : vocabLoad tokens merges = some v) : Loaded tokens merges v := by
  unfold vocabLoad at h
  split at h
  · cases h
  · next hsize =>
    simp only [vocabLookup, Option.bind_eq_bind, Option.bind_eq_some_iff] at h
    obtain ⟨_, h1, _, h2, _, h3, _, h4, _, h5, _, h6, _, h7, hv⟩ := h
    obtain rfl := Option.some.inj hv
    refine ⟨by omega, rfl, rfl, rfl, ?_⟩
    intro sp hsp
    simp only [specials, List.mem_cons, List.not_mem_nil, or_false] at hsp
    rcases hsp with rfl | rfl | rfl | rfl | rfl | rfl | rfl
    exacts [h1, h2, h3, h4, h5, h6, h7]

section
variable {tokens merges : List Bytes} {v : Vocab}

/-- A token id is the index of its string. -/
theorem Loaded.token_getElem (hl : Loaded tokens merges v) {s : Bytes} {t : Int}
    (h : tableGet v.tokenToId s = some t) : 0 ≤ t ∧ v.token[t.toNat]? = some s := by
  rw [hl.tokenToId] at h
  obtain ⟨i, hi, ht⟩ := mem_indexed.mp ((tableFill_get _ s).1 t h)
  have hlt : i < tokens.length := (List.getElem?_eq_some_iff.mp hi).1
  rw [ht, cInt_of_lt hlt hl.size, hl.token]
  exact ⟨Int.natCast_nonneg i, by simpa using hi⟩

/-- The text of a token found by the string it stands for. -/
theorem Loaded.tokenText (hl : Loaded tokens merges v) {s : Bytes} {t : Int}
    (h : tableGet v.tokenToId s = some t) :
    ds4TokenText v t = if vocabTokenIsLiteralSpecial s then s else decodeSymbols s.length s := by
  obtain ⟨h0, hs⟩ := hl.token_getElem h
  rw [ds4TokenText, if_neg (by omega), hs]

theorem Loaded.tokenText_enc (hl : Loaded tokens merges v) {bs : Bytes} {t : Int}
    (h : tableGet v.tokenToId (byteEncode bs) = some t) : ds4TokenText v t = bs := by
  rw [hl.tokenText h, not_literalSpecial_of_not_mem (byteEncode_not_mem bs).1]
  exact decodeSymbols_enc _ bs (Nat.le_refl _)

theorem Loaded.get_of_mem (hl : Loaded tokens merges v) {s : Bytes} (h : s ∈ tokens) :
    ∃ t, tableGet v.tokenToId s = some t := by
  rw [hl.tokenToId]
  exact (tableFill_get _ s).2 (mem_indexed_of_mem h)

/-! ## The merge loop -/

/-- A symbol of the merge loop: encoded bytes that the vocabulary has. -/
def Known (tokens : List Bytes) (sym : Bytes) : Prop := sym ∈ tokens ∧ ∃ bs, sym = byteEncode bs

theorem Loaded.join_known (hl : Loaded tokens merges v) (hc : Complete tokens merges) {a b : Bytes}
    (ha : Known tokens a) (hb : Known tokens b) (hr : 0 ≤ bpeRank v a b) : Known tokens (a ++ b) := by
  obtain ⟨-, x, rfl⟩ := ha
  obtain ⟨-, y, rfl⟩ := hb
  refine ⟨?_, x ++ y, (byteEncode_append x y).symm⟩
  apply hc.joins _ _ (byteEncode_not_mem x).2 (byteEncode_not_mem y).2
  unfold bpeRank at hr
  rw [hl.mergeRank] at hr
  cases hg : tableGet (tableFill (indexed merges)) (byteEncode x ++ 32 :: byteEncode y) with
  | none => rw [hg] at hr; simp at hr
  | some r => exact mem_of_mem_indexed ((tableFill_get _ _).1 r hg)

theorem mergeAt_eq {i : Nat} {sym : List Bytes} (h : i + 1 < sym.length) :
    ∃ pre a b post, sym = pre ++ a :: b :: post ∧ mergeAt i sym = pre ++ (a ++ b) :: post ∧
      sym.getD i [] = a ∧ sym.getD (i + 1) [] = b := by
  have hi : i < sym.length := by omega
  have h1 : sym.getD i [] = sym[i] := by simp [List.getD_eq_getElem?_getD, hi]
  have h2 : sym.getD (i + 1) [] = sym[i + 1] := by simp [List.getD_eq_getElem?_getD, h]
  refine ⟨sym.take i, sym[i], sym[i + 1], sym.drop (i + 2), ?_, ?_, h1, h2⟩
  · rw [← List.drop_eq_getElem_cons h, ← List.drop_eq_getElem_cons hi, List.take_append_drop]
  · rw [mergeAt, h1, h2]

/-- One round of the loop: the joined symbols spell the same bytes and are known. -/
theorem Loaded.mergeAt_sound (hl : Loaded tokens merges v) (hc : Complete tokens merges)
    {sym : List Bytes} {best : Nat × Int} (hb : bestMerge v none 0 sym = some best)
    (hk : ∀ x ∈ sym, Known tokens x) :
    (mergeAt best.1 sym).flatten = sym.flatten ∧ ∀ x ∈ mergeAt best.1 sym, Known tokens x := by
  obtain hn | ⟨-, hlt, hrank⟩ := bestMerge_lt v sym none 0 best hb
  · cases hn
  · obtain ⟨pre, a, b, post, hsym, hmerge, ha, hb'⟩ := @mergeAt_eq best.1 sym (by omega)
    rw [Nat.sub_zero, ha, hb'] at hrank
    rw [hmerge]
    subst hsym
    refine ⟨by simp, fun x hx => ?_⟩
    rcases List.mem_append.mp hx with hx | hx
    · exact hk x (List.mem_append_left _ hx)
    · rcases List.mem_cons.mp hx with rfl | hx
      · exact hl.join_known hc (hk a (by simp)) (hk b (by simp)) hrank
      · exact hk x (by simp [hx])

/-- The whole loop. -/
theorem Loaded.mergeSymbols_sound (hl : Loaded tokens merges v) (hc : Complete tokens merges)
    (sym : List Bytes) (hk : ∀ x ∈ sym, Known tokens x) :
    (mergeSymbols v sym).flatten = sym.flatten ∧ ∀ x ∈ mergeSymbols v sym, Known tokens x := by
  fun_induction mergeSymbols v sym with
  | case1 sym _ => exact ⟨rfl, hk⟩
  | case2 sym best hbest ih =>
    obtain ⟨hflat, hk'⟩ := hl.mergeAt_sound hc hbest hk
    obtain ⟨hf, hkn⟩ := ih hk'
    exact ⟨hf.trans hflat, hkn⟩

theorem Loaded.emitSymbol_text (hl : Loaded tokens merges v) {bs : Bytes}
    (hm : byteEncode bs ∈ tokens) : (emitSymbol v (byteEncode bs)).flatMap (ds4TokenText v) = bs := by
  obtain ⟨t, ht⟩ := hl.get_of_mem hm
  simp [emitSymbol, ht, hl.tokenText_enc ht]

/-- The texts of known symbols are the bytes the symbols encode. -/
theorem Loaded.emitSymbols_text (hl : Loaded tokens merges v) : ∀ (sym : List Bytes),
    (∀ x ∈ sym, Known tokens x) →
    byteEncode ((sym.flatMap (emitSymbol v)).flatMap (ds4TokenText v)) = sym.flatten
  | [], _ => rfl
  | x :: sym, hk => by
    obtain ⟨hm, bs, rfl⟩ := hk x List.mem_cons_self
    rw [List.flatMap_cons, List.flatMap_append, hl.emitSymbol_text hm, byteEncode_append,
      hl.emitSymbols_text sym (fun y hy => hk y (List.mem_cons_of_mem _ hy)), List.flatten_cons]

theorem byteEncode_injective {s r : Bytes} (h : byteEncode s = byteEncode r) : s = r := by
  rw [← decodeSymbols_enc _ s (Nat.le_refl _), ← decodeSymbols_enc _ r (Nat.le_refl _), h]

theorem Loaded.bpeEmitPiece_text (hl : Loaded tokens merges v) (hc : Complete tokens merges)
    (piece : Bytes) : (bpeEmitPiece v piece).flatMap (ds4TokenText v) = piece := by
  have hsplit := splitSymbols_enc _ piece (Nat.le_refl _)
  have hk : ∀ x ∈ piece.map enc, Known tokens x := by
    intro x hx
    obtain ⟨b, -, rfl⟩ := List.mem_map.mp hx
    exact ⟨hc.bytes b, [b], by simp [byteEncode, enc]⟩
  obtain ⟨hflat, hkn⟩ := hl.mergeSymbols_sound hc _ hk
  apply byteEncode_injective
  rw [bpeEmitPiece, hsplit, hl.emitSymbols_text _ hkn, hflat, byteEncode, List.flatMap_def]
  rfl

/-! ## The pre-tokenizer -/

theorem nextUtf8Char_bounds {s : Bytes} (h : s ≠ []) : 0 < nextUtf8Char s ∧ nextUtf8Char s ≤ s.length := by
  have hpos : 0 < s.length := List.length_pos_iff.mpr h
  unfold nextUtf8Char
  have hn : 0 < utf8LenFromFirstByte (s.headD 0) := by unfold utf8LenFromFirstByte; split_ifs <;> decide
  dsimp only
  split <;> omega

theorem consumeChars_le (p : Bytes → Bool) : ∀ (fuel : Nat) (s : Bytes), consumeChars p fuel s ≤ s.length
  | 0, _ => Nat.zero_le _
  | _ + 1, [] => Nat.le_refl _
  | fuel + 1, c :: s => by
    simp only [consumeChars]
    split
    · have h := nextUtf8Char_bounds (s := c :: s) (by simp)
      have ih := consumeChars_le p fuel ((c :: s).drop (nextUtf8Char (c :: s)))
      rw [List.length_drop] at ih
      omega
    · exact Nat.zero_le _

theorem spanLen_le (p : UInt8 → Bool) (s : Bytes) : spanLen p s ≤ s.length := by
  unfold spanLen
  exact (List.takeWhile_prefix p).length_le

theorem punctLen_le (s : Bytes) : punctLen s ≤ s.length := by
  have h1 := spanLen_le joyaiAsciiPunctSymbol s
  have h2 := spanLen_le asciiNewline (s.drop (spanLen joyaiAsciiPunctSymbol s))
  rw [List.length_drop] at h2
  unfold punctLen
  dsimp only
  omega

theorem lastNewlineEnd_le (s : Bytes) : lastNewlineEnd s ≤ s.length := by
  have := spanLen_le asciiSpace s
  unfold lastNewlineEnd
  unfold spanLen at this
  dsimp only
  omega

theorem ite_le {c : Prop} [Decidable c] {m n k : Nat} (hm : c → m ≤ k) (hn : ¬c → n ≤ k) : (if c then m else n) ≤ k := by
  split
  · next h => exact hm h
  · next h => exact hn h

/-- One case for each rule. -/
theorem ruleLen_le {s : Bytes} (h : s ≠ []) : ruleLen s ≤ s.length := by
  have hpos : 0 < s.length := List.length_pos_iff.mpr h
  have hu := (nextUtf8Char_bounds h).2
  have hsp := spanLen_le asciiSpace s
  unfold ruleLen joyaiConsumeLetters
  dsimp only
  refine ite_le (fun _ => ?_) fun _ => ?_
  · have := spanLen_le asciiDigit s
    omega
  refine ite_le (fun _ => ?_) fun _ => ?_
  · have := consumeChars_le joyaiCjkAt s.length (s.drop (nextUtf8Char s))
    rw [List.length_drop] at this
    omega
  refine ite_le (fun _ => ?_) fun _ => ?_
  · have := spanLen_le asciiAlpha (s.drop 1)
    rw [List.length_drop] at this
    omega
  refine ite_le (fun _ => ?_) fun _ => ?_
  · exact consumeChars_le _ s.length s
  refine ite_le (fun _ => ?_) fun _ => ?_
  · have := consumeChars_le (fun s => joyaiLetterLike (s.headD 0)) (s.drop 1).length (s.drop 1)
    rw [List.length_drop] at this ⊢
    omega
  refine ite_le (fun _ => ?_) fun _ => ?_
  · have := punctLen_le (s.drop 1)
    rw [List.length_drop] at this
    omega
  refine ite_le (fun _ => ?_) fun _ => ?_
  · exact punctLen_le s
  refine ite_le (fun _ => ?_) fun _ => ?_
  · refine ite_le (fun _ => lastNewlineEnd_le s) fun _ => ?_
    refine ite_le (fun _ => ?_) fun _ => ?_ <;> omega
  · exact hu

/-- Every round of the pre-tokenizer takes at least one byte and stays inside the text. -/
theorem pieceLen_bounds {s : Bytes} (h : s ≠ []) : 0 < pieceLen s ∧ pieceLen s ≤ s.length := by
  have hu := nextUtf8Char_bounds h
  have hr := ruleLen_le h
  unfold pieceLen
  split <;> omega

theorem pieces_flatten : ∀ (fuel : Nat) (s : Bytes), s.length ≤ fuel → (pieces fuel s).flatten = s
  | 0, [], _ => rfl
  | _ + 1, [], _ => rfl
  | 0, c :: s, h => by simp at h
  | fuel + 1, c :: s, h => by
    have hb := pieceLen_bounds (s := c :: s) (by simp)
    rw [pieces, List.flatten_cons, pieces_flatten fuel, List.take_append_drop]
    · rw [List.length_drop]; omega
    · simp

theorem Loaded.pieces_text (hl : Loaded tokens merges v) (hc : Complete tokens merges) :
    ∀ (ps : List Bytes), (ps.flatMap (bpeEmitPiece v)).flatMap (ds4TokenText v) = ps.flatten
  | [] => rfl
  | p :: ps => by
    rw [List.flatMap_cons, List.flatMap_append, hl.bpeEmitPiece_text hc, hl.pieces_text hc ps,
      List.flatten_cons]

theorem Loaded.bpeTokenizeText_text (hl : Loaded tokens merges v) (hc : Complete tokens merges)
    {t : Bytes} (ht : (0 : UInt8) ∉ t) : (bpeTokenizeText v t).flatMap (ds4TokenText v) = t := by
  rw [bpeTokenizeText, hl.pieces_text hc, cstr_of_no_nul ht]
  exact pieces_flatten _ _ (Nat.le_refl _)

/-! ## The special-token scanner -/

theorem Loaded.tokenizeSpan_text (hl : Loaded tokens merges v) (hc : Complete tokens merges)
    {t : Bytes} (ht : (0 : UInt8) ∉ t) : (tokenizeSpan v t).flatMap (ds4TokenText v) = t := by
  unfold tokenizeSpan
  split
  · next h => simp [h]
  · exact hl.bpeTokenizeText_text hc ht

/-- The decoder leaves the literals of the special tokens as they are: two hold
    no U+FF5C and are ASCII, the others are copied. -/
theorem specialTexts_spec : ∀ t ∈ specialTexts, 0 < t.length ∧
    (if vocabTokenIsLiteralSpecial t then t else decodeSymbols t.length t) = t := by
  decide +kernel

theorem mem_specialTexts {sp : Bytes × Int} (h : sp ∈ specials v) : sp.1 ∈ specialTexts :=
  List.mem_map_of_mem (f := Prod.fst) h

/-- A special token's text is its literal. -/
theorem Loaded.special_text (hl : Loaded tokens merges v) {sp : Bytes × Int} (h : sp ∈ specials v) :
    ds4TokenText v sp.2 = sp.1 := by
  rw [hl.tokenText (hl.special sp h)]
  exact (specialTexts_spec sp.1 (mem_specialTexts h)).2

theorem Loaded.scanRendered_text (hl : Loaded tokens merges v) (hc : Complete tokens merges) :
    ∀ (fuel : Nat) (span p : Bytes), p.length ≤ fuel → (0 : UInt8) ∉ span → (0 : UInt8) ∉ p →
    (scanRendered v fuel span p).flatMap (ds4TokenText v) = span ++ p
  | 0, span, [], _, hs, _ => by simpa [scanRendered] using hl.tokenizeSpan_text hc hs
  | _ + 1, span, [], _, hs, _ => by simpa [scanRendered] using hl.tokenizeSpan_text hc hs
  | 0, _, _ :: _, h, _, _ => by simp at h
  | fuel + 1, span, c :: p, h, hs, hp => by
    rw [List.length_cons] at h
    rw [scanRendered]
    cases hsp : specialTokenAt v (c :: p) with
    | none =>
      have hc' : (0 : UInt8) ∉ span ++ [c] := by
        simp only [List.mem_append, List.mem_singleton, not_or]
        exact ⟨hs, fun e => hp (e ▸ List.mem_cons_self)⟩
      dsimp only
      rw [hl.scanRendered_text hc fuel _ p (by omega) hc' (fun e => hp (List.mem_cons_of_mem _ e)),
        List.append_assoc, List.singleton_append]
    | some sp =>
      have hmem := List.mem_of_find?_eq_some hsp
      have hstart : startsWith sp.1 (c :: p) = true := by
        simpa using List.find?_some hsp
      obtain ⟨r, hr⟩ := startsWith_iff.mp hstart
      have hpos := (specialTexts_spec sp.1 (mem_specialTexts hmem)).1
      have hlen : sp.1.length + r.length = p.length + 1 := by
        rw [← List.length_append, ← hr, List.length_cons]
      have hr0 : (0 : UInt8) ∉ r := fun e => hp (hr ▸ List.mem_append_right _ e)
      dsimp only
      rw [hr, List.drop_left, List.flatMap_append, hl.tokenizeSpan_text hc hs, List.flatMap_cons,
        hl.special_text hmem, hl.scanRendered_text hc fuel [] r (by omega) (by simp) hr0]
      rfl

theorem Loaded.tokenizeRendered_text (hl : Loaded tokens merges v) (hc : Complete tokens merges)
    {t : Bytes} (ht : (0 : UInt8) ∉ t) :
    (tokenizeRenderedChatVocab v t).flatMap (ds4TokenText v) = t := by
  rw [tokenizeRenderedChatVocab, cstr_of_no_nul ht]
  exact hl.scanRendered_text hc _ [] t (Nat.le_refl _) (by simp) ht

end

/-- **The tokenizer is lossless.** Over a loaded vocabulary that is complete, the
    texts of the tokens of a NUL-free byte string spell that string, through the
    rendered-chat scanner and through plain BPE. -/
theorem tokenizer_lossless {tokens merges : List Bytes} {v : Vocab}
    (hv : vocabLoad tokens merges = some v) (hc : Complete tokens merges)
    (t : Bytes) (ht : (0 : UInt8) ∉ t) :
    (tokenizeRenderedChatVocab v t).flatMap (ds4TokenText v) = t ∧
    (bpeTokenizeText v t).flatMap (ds4TokenText v) = t :=
  ⟨(vocabLoad_loaded hv).tokenizeRendered_text hc ht, (vocabLoad_loaded hv).bpeTokenizeText_text hc ht⟩

/-- Loading fails only for a missing special token or an oversized table. -/
theorem vocabLoad_isSome {tokens : List Bytes} (merges : List Bytes)
    (hsize : (tokens.length : Int) ≤ int32Max) (hsp : ∀ t ∈ specialTexts, t ∈ tokens) :
    ∃ v, vocabLoad tokens merges = some v := by
  have hget : ∀ t ∈ specialTexts, ∃ i, vocabLookup (tableFill (indexed tokens)) t = some i :=
    fun t ht => (tableFill_get _ t).2 (mem_indexed_of_mem (hsp t ht))
  simp only [specialTexts, List.forall_mem_cons] at hget
  obtain ⟨⟨_, h1⟩, ⟨_, h2⟩, ⟨_, h3⟩, ⟨_, h4⟩, ⟨_, h5⟩, ⟨_, h6⟩, ⟨_, h7⟩, -⟩ := hget
  rw [vocabLoad, if_neg (by omega)]
  dsimp only
  rw [h1, h2, h3, h4, h5, h6, h7]
  exact ⟨_, rfl⟩

/-- The byte alphabet, the special tokens and one merge. -/
def sampleTokens : List Bytes :=
  (List.range 256).map (fun n => enc (UInt8.ofNat n)) ++ specialTexts ++ [utf8 "hi"]

def sampleMerges : List Bytes := [utf8 "h i"]

theorem sample_complete : Complete sampleTokens sampleMerges where
  bytes := by
    refine forall_byte fun n hn => ?_
    simp only [sampleTokens, List.mem_append, List.mem_map, List.mem_range]
    exact .inl (.inl ⟨n, hn, rfl⟩)
  joins a b ha _ h := by
    have h' : a ++ 32 :: b = [104, 32, 105] := List.mem_singleton.mp h
    match a, ha, h' with
    | [x], _, h' =>
      obtain ⟨rfl, rfl⟩ : x = 104 ∧ b = [105] := by simpa using h'
      exact List.mem_append_right _ (List.mem_singleton.mpr rfl)
    | [], _, h' => simp at h'
    | x :: y :: a', ha, h' =>
      have hy : y = 32 := by simp at h'; exact h'.2.1
      exact absurd (hy ▸ by simp) ha

theorem tokenizer_lossless_sample : ∃ v, vocabLoad sampleTokens sampleMerges = some v ∧
    (tokenizeRenderedChatVocab v (utf8 "<think>hi</think>é")).flatMap (ds4TokenText v) =
      utf8 "<think>hi</think>é" ∧
    (bpeTokenizeText v (utf8 "<think>hi</think>é")).flatMap (ds4TokenText v) =
      utf8 "<think>hi</think>é" := by
  obtain ⟨v, hv⟩ := @vocabLoad_isSome sampleTokens sampleMerges
    (by rw [sampleTokens]; simp [specialTexts, int32Max])
    (fun t ht => List.mem_append_left _ (List.mem_append_right _ ht))
  exact ⟨v, hv, tokenizer_lossless hv sample_complete _ (by decide)⟩

end Ds4
