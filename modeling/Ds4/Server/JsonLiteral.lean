import Mathlib.Algebra.Group.Nat.Defs
import Ds4.Utf8
import Ds4.Server.JsonText

/- The string literals of RFC 8259 and what they stand for, against the reader
   `json_string` and the writers `json_escape`, `json_escape_fragment_n` of
   ds4_server.c.

   PROVED here (`json_string_codec`): the reader inverts the writer on every text
   without a NUL and stops right after the literal; the fragment writer is a
   homomorphism; and the reader takes every literal without an escaped NUL to the
   UTF-8 of its characters, surrogate pairs joined and unpaired surrogates replaced.

   The literals and their characters are stated in terms of the grammar alone; only
   the theorems mention the reader. -/
namespace Ds4.Server
open Bytes

/-! ## Literals -/

/-- The escapes of one letter. -/
inductive ShortEscape
  | quote
  | backslash
  | slash
  | backspace
  | formFeed
  | lineFeed
  | carriageReturn
  | tab
  deriving DecidableEq

def ShortEscape.letter : ShortEscape → UInt8
  | .quote => 34
  | .backslash => 92
  | .slash => 47
  | .backspace => 98
  | .formFeed => 102
  | .lineFeed => 110
  | .carriageReturn => 114
  | .tab => 116

def ShortEscape.char : ShortEscape → Char
  | .quote => '"'
  | .backslash => '\\'
  | .slash => '/'
  | .backspace => Char.ofNat 8
  | .formFeed => Char.ofNat 12
  | .lineFeed => '\n'
  | .carriageReturn => '\r'
  | .tab => '\t'

/-- A hexadecimal digit, in either case. -/
structure HexDigit where
  value : Fin 16
  upper : Bool

def HexDigit.byte (d : HexDigit) : UInt8 :=
  UInt8.ofNat (if d.value < 10 then 48 + d.value else if d.upper then 55 + d.value else 87 + d.value)

/-- The four digits of one escaped code unit. -/
structure CodeUnit where
  d3 : HexDigit
  d2 : HexDigit
  d1 : HexDigit
  d0 : HexDigit

def CodeUnit.value (u : CodeUnit) : Nat :=
  u.d3.value * 4096 + u.d2.value * 256 + u.d1.value * 16 + u.d0.value

/-- A character of a string literal, as it is spelled. -/
inductive LiteralChar
  | raw (c : Char) (unescaped : 0x20 ≤ c.toNat ∧ c ≠ '"' ∧ c ≠ '\\')
  | short (e : ShortEscape)
  | unit (u : CodeUnit)

def LiteralChar.text : LiteralChar → Bytes
  | .raw c _ => String.utf8EncodeChar c
  | .short e => [92, e.letter]
  | .unit u => [92, 117, u.d3.byte, u.d2.byte, u.d1.byte, u.d0.byte]

def literalBody (l : List LiteralChar) : Bytes := l.flatMap LiteralChar.text

/-- The literal with its quotes. -/
def literalText (l : List LiteralChar) : Bytes := 34 :: literalBody l ++ [34]

def CodeUnit.isHigh (u : CodeUnit) : Bool := 0xd800 ≤ u.value && u.value ≤ 0xdbff

def CodeUnit.isLow (u : CodeUnit) : Bool := 0xdc00 ≤ u.value && u.value ≤ 0xdfff

def replacement : Char := Char.ofNat 0xfffd

/-- A code unit on its own: a surrogate is replaced. -/
def CodeUnit.char (u : CodeUnit) : Char :=
  if u.isHigh || u.isLow then replacement else Char.ofNat u.value

/-- The character of a surrogate pair. -/
def pairChar (hi lo : CodeUnit) : Char :=
  Char.ofNat (0x10000 + (hi.value - 0xd800) * 0x400 + (lo.value - 0xdc00))

/-- The characters a literal stands for. -/
def literalChars : List LiteralChar → List Char
  | [] => []
  | .raw c _ :: l => c :: literalChars l
  | .short e :: l => e.char :: literalChars l
  | .unit hi :: .unit lo :: l =>
    if hi.isHigh && lo.isLow then pairChar hi lo :: literalChars l
    else hi.char :: literalChars (.unit lo :: l)
  | .unit u :: l => u.char :: literalChars l

def utf8Chars (cs : List Char) : Bytes := cs.flatMap String.utf8EncodeChar

/-- No code unit of the literal is zero. -/
def NoEscapedNul (l : List LiteralChar) : Prop := ∀ u, LiteralChar.unit u ∈ l → u.value ≠ 0

/-! ## UTF-8 -/

theorem byte_toNat {n : Nat} (h : n < 256) : (UInt8.ofNat n).toNat = n := UInt8.toNat_ofNat_of_lt' h

theorem word_toNat {n : Nat} (h : n < 4294967296) : (UInt32.ofNat n).toNat = n := UInt32.toNat_ofNat_of_lt' h

theorem lead_byte {n k : Nat} (hk : 0x80 ≤ k) (hn : n + k < 256) : 0x80 ≤ UInt8.ofNat (n + k) := by
  rw [UInt8.le_iff_toNat_le, byte_toNat hn]
  exact Nat.le_trans hk (Nat.le_add_left k n)

/-- Past ASCII no byte of a character is an ASCII one. -/
theorem utf8EncodeChar_high {c : Char} (h : 0x80 ≤ c.toNat) : ∀ b ∈ String.utf8EncodeChar c, 0x80 ≤ b := by
  change 0x80 ≤ c.val.toNat at h
  rw [String.utf8EncodeChar, if_neg (by omega)]
  split
  · simp only [List.forall_mem_cons, List.not_mem_nil, false_imp_iff, implies_true, and_true]
    exact ⟨lead_byte (by decide) (by omega), lead_byte (by decide) (by omega)⟩
  · split
    · simp only [List.forall_mem_cons, List.not_mem_nil, false_imp_iff, implies_true, and_true]
      exact ⟨lead_byte (by decide) (by omega), lead_byte (by decide) (by omega), lead_byte (by decide) (by omega)⟩
    · simp only [List.forall_mem_cons, List.not_mem_nil, false_imp_iff, implies_true, and_true]
      exact ⟨lead_byte (by decide) (by omega), lead_byte (by decide) (by omega), lead_byte (by decide) (by omega),
        lead_byte (by decide) (by omega)⟩

theorem utf8EncodeChar_ascii {c : Char} (h : c.toNat < 0x80) :
    String.utf8EncodeChar c = [UInt8.ofNat c.toNat] := if_pos (Nat.le_of_lt_succ h)

/-- A character other than `d` has no byte that is the ASCII `d`. -/
theorem utf8EncodeChar_ne {c d : Char} (hd : d.toNat < 0x80) (h : c ≠ d) :
    ∀ b ∈ String.utf8EncodeChar c, b ≠ UInt8.ofNat d.toNat := by
  intro b hb heq
  rw [heq] at hb
  by_cases hc : c.toNat < 0x80
  · rw [utf8EncodeChar_ascii hc, List.mem_singleton] at hb
    have hnat := congrArg UInt8.toNat hb
    rw [byte_toNat (by omega), byte_toNat (by omega)] at hnat
    exact h (Char.toNat_inj.mp hnat.symm)
  · have hhigh := utf8EncodeChar_high (Nat.not_lt.mp hc) _ hb
    rw [UInt8.le_iff_toNat_le, byte_toNat (by omega)] at hhigh
    exact absurd hhigh (Nat.not_le.mpr hd)

/-! ## The reader on a literal -/

/-- Bytes that are no quote and no backslash are copied. -/
theorem jsonStringBody_plain {s out r : Bytes} : ∀ (raw : Bytes) {fuel : Nat},
    (∀ b ∈ raw, b ≠ 34 ∧ b ≠ 92) → jsonStringBody fuel s = some (out, r) →
    jsonStringBody (raw.length + fuel) (raw ++ s) = some (raw ++ out, r)
  | [], fuel, _, h => by rw [List.length_nil, Nat.zero_add]; exact h
  | b :: raw, fuel, hraw, h => by
    rw [List.forall_mem_cons] at hraw
    have ih := jsonStringBody_plain raw hraw.2 h
    rw [List.length_cons, show raw.length + 1 + fuel = raw.length + fuel + 1 by omega, List.cons_append,
      jsonStringBody, if_neg hraw.1.1]
    simp only [jsonChar, ne_eq, hraw.1.2, not_false_eq_true, if_true, Option.bind_eq_bind, Option.bind_some, ih]
    rfl

theorem jsonSimple_letter (e : ShortEscape) : e.letter ≠ 117 ∧
    (jsonSimple e.letter).map (fun b => [b]) = some (String.utf8EncodeChar e.char) := by
  cases e <;> decide

theorem jsonHex_byte (d : HexDigit) : jsonHex d.byte = some (UInt32.ofNat d.value) := by
  obtain ⟨value, upper⟩ := d
  revert value
  cases upper <;> decide

theorem shift_or {x d : Nat} (hx : x < 2 ^ 28) (hd : d < 16) :
    UInt32.ofNat x <<< 4 ||| UInt32.ofNat d = UInt32.ofNat (x * 16 + d) := by
  apply UInt32.toNat_inj.mp
  rw [UInt32.toNat_or, UInt32.toNat_shiftLeft, word_toNat (by omega), word_toNat (by omega),
    word_toNat (by omega), show (4 : UInt32).toNat % 32 = 4 from rfl, Nat.shiftLeft_eq,
    Nat.mod_eq_of_lt (by omega), Nat.or_comm, Nat.mul_comm, or_add_low (by omega), Nat.add_comm]

theorem jsonHex4_value (u : CodeUnit) :
    jsonHex4 u.d3.byte u.d2.byte u.d1.byte u.d0.byte = some (UInt32.ofNat u.value) := by
  have h3 := u.d3.value.isLt
  have h2 := u.d2.value.isLt
  have h1 := u.d1.value.isLt
  have h0 := u.d0.value.isLt
  simp only [jsonHex4, jsonHex_byte, Option.bind_eq_bind, Option.bind_some]
  rw [shift_or (by omega) h2, shift_or (by omega) h1, shift_or (by omega) h0, CodeUnit.value]
  congr 2
  omega

theorem CodeUnit.value_lt (u : CodeUnit) : u.value < 65536 := by
  have h3 := u.d3.value.isLt
  have h2 := u.d2.value.isLt
  have h1 := u.d1.value.isLt
  have h0 := u.d0.value.isLt
  rw [CodeUnit.value]
  omega

theorem word_le {n : Nat} (hn : n < 65536) (k : UInt32) :
    (UInt32.ofNat n ≤ k ↔ n ≤ k.toNat) ∧ (k ≤ UInt32.ofNat n ↔ k.toNat ≤ n) := by
  rw [UInt32.le_iff_toNat_le, UInt32.le_iff_toNat_le, word_toNat (by omega)]
  exact ⟨Iff.rfl, Iff.rfl⟩

theorem CodeUnit.high_iff (u : CodeUnit) :
    (0xd800 ≤ UInt32.ofNat u.value ∧ UInt32.ofNat u.value ≤ 0xdbff) ↔ u.isHigh = true := by
  rw [(word_le u.value_lt _).1, (word_le u.value_lt _).2, CodeUnit.isHigh, Bool.and_eq_true, decide_eq_true_eq,
    decide_eq_true_eq]
  rfl

theorem CodeUnit.low_eq (u : CodeUnit) : Server.isLow (UInt32.ofNat u.value) = u.isLow := by
  rw [Server.isLow, CodeUnit.isLow, decide_eq_decide.mpr (word_le u.value_lt _).1,
    decide_eq_decide.mpr (word_le u.value_lt _).2]
  rfl

/-- The writer of the reader's code points, on one that is a character. -/
theorem utf8Put_valid {n : Nat} (h : n.isValidChar) :
    utf8Put (UInt32.ofNat n) = String.utf8EncodeChar (Char.ofNat n) := by
  have hlt : n < 0x110000 := by
    rcases h with h | h
    · exact Nat.lt_trans h (by decide)
    · exact h.2
  have hval : (Char.ofNat n).val = UInt32.ofNat n := by
    apply UInt32.toNat_inj.mp
    rw [Char.ofNat, dif_pos h, word_toNat (by omega)]
    rfl
  rw [utf8Put, if_neg, ← hval, utf8Put_char]
  rw [gt_iff_lt, ← UInt32.not_le, UInt32.le_iff_toNat_le, UInt32.le_iff_toNat_le, UInt32.le_iff_toNat_le,
    word_toNat (by omega)]
  show ¬ (¬ n ≤ 0x10ffff ∨ (0xd800 ≤ n ∧ n ≤ 0xdfff))
  rcases h with h | h
  · omega
  · have := h.1
    omega

theorem utf8Put_replacement : utf8Put 0xfffd = String.utf8EncodeChar replacement := by decide

/-- A code unit that opens no pair. -/
theorem utf8Put_single {u : CodeUnit} (h : u.isHigh = false) :
    utf8Put (UInt32.ofNat u.value) = String.utf8EncodeChar u.char := by
  rw [CodeUnit.char, h, Bool.false_or]
  have hlt := u.value_lt
  rw [CodeUnit.isHigh, Bool.and_eq_false_iff, decide_eq_false_iff_not, decide_eq_false_iff_not] at h
  split
  · next hlow =>
    rw [CodeUnit.isLow, Bool.and_eq_true, decide_eq_true_eq, decide_eq_true_eq] at hlow
    have hsurrogate : 0xd800 ≤ UInt32.ofNat u.value ∧ UInt32.ofNat u.value ≤ 0xdfff := by
      rw [(word_le hlt _).1, (word_le hlt _).2]
      exact ⟨Nat.le_trans (by decide) hlow.1, hlow.2⟩
    rw [utf8Put, if_pos (.inr hsurrogate)]
    exact utf8Put_char replacement
  · next hlow =>
    rw [CodeUnit.isLow, Bool.and_eq_true, decide_eq_true_eq, decide_eq_true_eq] at hlow
    apply utf8Put_valid
    by_cases hsmall : u.value < 0xd800
    · exact .inl hsmall
    · exact .inr ⟨by omega, by omega⟩

theorem pair_value {hi lo : CodeUnit} (hhi : hi.isHigh = true) (hlo : lo.isLow = true) :
    utf8Put (((UInt32.ofNat hi.value - 0xd800) <<< 10) + 0x10000 + (UInt32.ofNat lo.value - 0xdc00)) =
      String.utf8EncodeChar (pairChar hi lo) := by
  rw [CodeUnit.isHigh, Bool.and_eq_true, decide_eq_true_eq, decide_eq_true_eq] at hhi
  rw [CodeUnit.isLow, Bool.and_eq_true, decide_eq_true_eq, decide_eq_true_eq] at hlo
  have hword : ((UInt32.ofNat hi.value - 0xd800) <<< 10) + 0x10000 + (UInt32.ofNat lo.value - 0xdc00) =
      UInt32.ofNat (0x10000 + (hi.value - 0xd800) * 0x400 + (lo.value - 0xdc00)) := by
    apply UInt32.toNat_inj.mp
    have hh : (UInt32.ofNat hi.value - 0xd800).toNat = hi.value - 0xd800 := by
      rw [UInt32.toNat_sub_of_le _ _ ((word_le hi.value_lt 0xd800).2.mpr hhi.1), word_toNat (by omega)]
      rfl
    have hl : (UInt32.ofNat lo.value - 0xdc00).toNat = lo.value - 0xdc00 := by
      rw [UInt32.toNat_sub_of_le _ _ ((word_le lo.value_lt 0xdc00).2.mpr hlo.1), word_toNat (by omega)]
      rfl
    rw [UInt32.toNat_add, UInt32.toNat_add, UInt32.toNat_shiftLeft, hh, hl, word_toNat (by omega),
      show (10 : UInt32).toNat % 32 = 10 from rfl, show (0x10000 : UInt32).toNat = 0x10000 from rfl, Nat.shiftLeft_eq]
    omega
  rw [hword, pairChar]
  apply utf8Put_valid
  exact .inr ⟨by omega, by omega⟩

theorem jsonU16_plain {c : UInt8} (h : c ≠ 92) (s : Bytes) : jsonU16 (c :: s) = none := by simp [jsonU16, h]

theorem jsonU16_short {c : UInt8} (h : c ≠ 117) (s : Bytes) : jsonU16 (92 :: c :: s) = none := by simp [jsonU16, h]

theorem jsonU16_unit (u : CodeUnit) (s : Bytes) :
    jsonU16 ((LiteralChar.unit u).text ++ s) = some (UInt32.ofNat u.value, s) := by
  simp [LiteralChar.text, jsonU16, jsonHex4_value]

/-- What stands ahead is an escaped code unit only where the literal goes on with one. -/
theorem jsonU16_literal : ∀ (l : List LiteralChar) (k : Bytes), (∀ u l', l ≠ .unit u :: l') →
    jsonU16 (literalBody l ++ 34 :: k) = none
  | [], _, _ => rfl
  | .raw c h :: l, k, _ => by
    have hplain := utf8EncodeChar_ne (by decide : '\\'.toNat < 0x80) h.2.2
    have hlen := String.length_utf8EncodeChar c
    have hsize := Char.utf8Size_pos c
    rw [literalBody, List.flatMap_cons, LiteralChar.text]
    generalize String.utf8EncodeChar c = bs at hplain hlen
    cases bs with
    | nil =>
      rw [List.length_nil] at hlen
      omega
    | cons b bs => exact jsonU16_plain (hplain b List.mem_cons_self) _
  | .short e :: l, k, _ => jsonU16_short (jsonSimple_letter e).1 _
  | .unit u :: l, k, h => absurd rfl (h u l)

/-- One round on a code unit that no pair takes in. -/
theorem jsonChar_single {u : CodeUnit} {s : Bytes}
    (h : u.isHigh = true → ∀ lo r, jsonU16 s = some (lo, r) → Server.isLow lo = false) :
    jsonChar ((LiteralChar.unit u).text ++ s) = some (String.utf8EncodeChar u.char, s) := by
  have hround : jsonChar ((LiteralChar.unit u).text ++ s) = some (jsonPair (UInt32.ofNat u.value) s) := by
    show (jsonU16 ((LiteralChar.unit u).text ++ s)).map (fun v => jsonPair v.1 v.2) = _
    rw [jsonU16_unit]
    rfl
  rw [hround, jsonPair]
  cases hhi : u.isHigh with
  | false =>
    rw [if_neg (by rw [u.high_iff, hhi]; exact Bool.false_ne_true), utf8Put_single hhi]
  | true =>
    have hchar : u.char = replacement := by rw [CodeUnit.char, hhi]; rfl
    rw [if_pos (u.high_iff.mpr hhi), hchar, ← utf8Put_replacement]
    cases hu : jsonU16 s with
    | none => rfl
    | some v =>
      obtain ⟨lo, r⟩ := v
      dsimp only
      rw [h hhi lo r hu, if_neg Bool.false_ne_true]

/-- The round on a surrogate pair takes both units. -/
theorem jsonChar_pair {hi lo : CodeUnit} (hhi : hi.isHigh = true) (hlo : lo.isLow = true) (s : Bytes) :
    jsonChar ((LiteralChar.unit hi).text ++ ((LiteralChar.unit lo).text ++ s)) =
      some (String.utf8EncodeChar (pairChar hi lo), s) := by
  have hround : jsonChar ((LiteralChar.unit hi).text ++ ((LiteralChar.unit lo).text ++ s)) =
      some (jsonPair (UInt32.ofNat hi.value) ((LiteralChar.unit lo).text ++ s)) := by
    show (jsonU16 ((LiteralChar.unit hi).text ++ _)).map (fun v => jsonPair v.1 v.2) = _
    rw [jsonU16_unit]
    rfl
  rw [hround, jsonPair, if_pos (hi.high_iff.mpr hhi), jsonU16_unit]
  dsimp only
  rw [lo.low_eq, hlo, if_pos rfl, pair_value hhi hlo]

/-- One round, and the rest of the loop. -/
theorem jsonStringBody_round {fuel : Nat} {t s b out r : Bytes} (ht : ∃ t', t = 92 :: t')
    (hchar : jsonChar (t ++ s) = some (b, s)) (h : ∀ f, s.length ≤ f → jsonStringBody f s = some (out, r))
    (hfuel : (t ++ s).length ≤ fuel) : jsonStringBody fuel (t ++ s) = some (b ++ out, r) := by
  obtain ⟨t', rfl⟩ := ht
  rw [List.cons_append] at hchar hfuel ⊢
  rw [List.length_cons, List.length_append] at hfuel
  cases fuel with
  | zero => cases hfuel
  | succ fuel =>
    rw [jsonStringBody, if_neg (by decide), hchar]
    simp only [Option.bind_eq_bind, Option.bind_some, h fuel (by omega)]

theorem unit_head (u : CodeUnit) (t : Bytes) : ∃ t', (LiteralChar.unit u).text ++ t = 92 :: t' := ⟨_, rfl⟩

/-- **The reader on a literal**: the characters it stands for, up to its closing quote. -/
theorem jsonStringBody_literal (l : List LiteralChar) (k : Bytes) :
    ∀ fuel, (literalBody l ++ 34 :: k).length ≤ fuel →
      jsonStringBody fuel (literalBody l ++ 34 :: k) = some (utf8Chars (literalChars l), k) := by
  induction l using literalChars.induct with
  | case1 =>
    intro fuel hfuel
    cases fuel with
    | zero => cases hfuel
    | succ fuel => simp [literalBody, jsonStringBody, literalChars, utf8Chars]
  | case2 c h l ih =>
    intro fuel hfuel
    have hquote := utf8EncodeChar_ne (by decide : '"'.toNat < 0x80) h.2.1
    have hback := utf8EncodeChar_ne (by decide : '\\'.toNat < 0x80) h.2.2
    rw [literalBody, List.flatMap_cons, ← literalBody, List.append_assoc] at hfuel ⊢
    rw [List.length_append] at hfuel
    obtain ⟨f, rfl⟩ := Nat.exists_eq_add_of_le (Nat.le_trans (Nat.le_add_right _ _) hfuel)
    exact jsonStringBody_plain _ (fun b hb => ⟨hquote b hb, hback b hb⟩) (ih f (by omega))
  | case3 e l ih =>
    intro fuel hfuel
    obtain ⟨hne, hletter⟩ := jsonSimple_letter e
    obtain ⟨b, hb, he⟩ := Option.map_eq_some_iff.mp hletter
    rw [literalBody, List.flatMap_cons, ← literalBody, List.append_assoc] at hfuel ⊢
    rw [literalChars, utf8Chars, List.flatMap_cons, ← utf8Chars, ← he]
    refine jsonStringBody_round ⟨_, rfl⟩ ?_ ih hfuel
    simp [LiteralChar.text, jsonChar, hne, hb]
  | case4 hi lo l hpair ih =>
    intro fuel hfuel
    rw [literalChars, if_pos hpair, utf8Chars, List.flatMap_cons, ← utf8Chars]
    rw [Bool.and_eq_true] at hpair
    rw [literalBody, List.flatMap_cons, List.flatMap_cons, ← literalBody, ← List.append_assoc, List.append_assoc]
      at hfuel ⊢
    refine jsonStringBody_round (unit_head hi _) ?_ ih hfuel
    rw [List.append_assoc]
    exact jsonChar_pair hpair.1 hpair.2 _
  | case5 hi lo l hpair ih =>
    intro fuel hfuel
    rw [literalChars, if_neg hpair, utf8Chars, List.flatMap_cons, ← utf8Chars]
    rw [literalBody, List.flatMap_cons, ← literalBody, List.append_assoc] at hfuel ⊢
    refine jsonStringBody_round ⟨_, rfl⟩ (jsonChar_single fun hhi v r hv => ?_) ih hfuel
    rw [literalBody, List.flatMap_cons, List.append_assoc, jsonU16_unit] at hv
    cases hv
    rw [lo.low_eq]
    simpa [hhi] using hpair
  | case6 u l hno ih =>
    intro fuel hfuel
    have hchars : literalChars (.unit u :: l) = u.char :: literalChars l := by
      rw [literalChars]
      exact hno
    rw [hchars, utf8Chars, List.flatMap_cons, ← utf8Chars]
    rw [literalBody, List.flatMap_cons, ← literalBody, List.append_assoc] at hfuel ⊢
    refine jsonStringBody_round ⟨_, rfl⟩ (jsonChar_single fun _ v r hv => ?_) ih hfuel
    rw [jsonU16_literal l k hno] at hv
    cases hv

theorem utf8EncodeChar_no_nul {c : Char} (h : c.toNat ≠ 0) : (0 : UInt8) ∉ String.utf8EncodeChar c := by
  intro h0
  exact utf8EncodeChar_ne (by decide : (Char.ofNat 0).toNat < 0x80) (fun hc => h (by rw [hc]; rfl)) 0 h0 rfl

theorem ofNat_ne_nul {n : Nat} (h : n ≠ 0) (hn : n.isValidChar) : (Char.ofNat n).toNat ≠ 0 := by
  rw [Char.ofNat, dif_pos hn]
  exact h

theorem CodeUnit.char_ne_nul {u : CodeUnit} (h : u.value ≠ 0) : u.char.toNat ≠ 0 := by
  rw [CodeUnit.char]
  split
  · decide
  · next hlone =>
    rw [CodeUnit.isHigh, CodeUnit.isLow] at hlone
    simp only [Bool.or_eq_true, Bool.and_eq_true, decide_eq_true_eq] at hlone
    have hlt := u.value_lt
    apply ofNat_ne_nul h
    by_cases hsmall : u.value < 0xd800
    · exact .inl hsmall
    · exact .inr ⟨by omega, by omega⟩

theorem pairChar_ne_nul {hi lo : CodeUnit} (h : (hi.isHigh && lo.isLow) = true) : (pairChar hi lo).toNat ≠ 0 := by
  rw [CodeUnit.isHigh, CodeUnit.isLow] at h
  simp only [Bool.and_eq_true, decide_eq_true_eq] at h
  exact ofNat_ne_nul (by omega) (.inr ⟨by omega, by omega⟩)

theorem literalChars_no_nul {l : List LiteralChar} (h : NoEscapedNul l) : ∀ c ∈ literalChars l, c.toNat ≠ 0 := by
  induction l using literalChars.induct with
  | case1 => simp [literalChars]
  | case2 c hc l ih =>
    rw [literalChars, List.forall_mem_cons]
    exact ⟨by omega, ih fun u hu => h u (List.mem_cons_of_mem _ hu)⟩
  | case3 e l ih =>
    rw [literalChars, List.forall_mem_cons]
    exact ⟨by cases e <;> decide, ih fun u hu => h u (List.mem_cons_of_mem _ hu)⟩
  | case4 hi lo l hpair ih =>
    rw [literalChars, if_pos hpair, List.forall_mem_cons]
    exact ⟨pairChar_ne_nul hpair, ih fun u hu => h u (List.mem_cons_of_mem _ (List.mem_cons_of_mem _ hu))⟩
  | case5 hi lo l hpair ih =>
    rw [literalChars, if_neg hpair, List.forall_mem_cons]
    exact ⟨CodeUnit.char_ne_nul (h hi List.mem_cons_self), ih fun u hu => h u (List.mem_cons_of_mem _ hu)⟩
  | case6 u l hno ih =>
    have hchars : literalChars (.unit u :: l) = u.char :: literalChars l := by
      rw [literalChars]
      exact hno
    rw [hchars, List.forall_mem_cons]
    exact ⟨CodeUnit.char_ne_nul (h u List.mem_cons_self), ih fun u hu => h u (List.mem_cons_of_mem _ hu)⟩

/-- The fragment writer does not see how the text was cut. -/
theorem jsonEscapeFragment_flatten (parts : List Bytes) :
    jsonEscapeFragment parts.flatten = (parts.map jsonEscapeFragment).flatten := by
  induction parts with
  | nil => rfl
  | cons p parts ih =>
    rw [List.flatten_cons, List.map_cons, List.flatten_cons, ← ih]
    exact List.flatMap_append

theorem jsonString_literal {l : List LiteralChar} (hl : NoEscapedNul l) (r : Bytes) :
    jsonString (literalText l ++ r) = some (utf8Chars (literalChars l), r) := by
  have hnul : (0 : UInt8) ∉ utf8Chars (literalChars l) := by
    intro h0
    obtain ⟨c, hc, hb⟩ := List.mem_flatMap.mp h0
    exact utf8EncodeChar_no_nul (literalChars_no_nul hl c hc) hb
  rw [literalText, List.append_assoc, List.cons_append, jsonString_quote, List.singleton_append,
    jsonStringBody_literal l r _ (Nat.le_refl _)]
  simp only [Option.map_some, cstr_of_no_nul hnul]

/-- **The JSON string codec**: what the writer wrote is read back, however the
    fragments were cut, and every literal is read as its characters. -/
theorem json_string_codec (s r : Bytes) (parts : List Bytes) (l : List LiteralChar) (hs : (0 : UInt8) ∉ s)
    (hl : NoEscapedNul l) :
    jsonString (jsonEscape s ++ r) = some (s, r) ∧
      jsonEscape parts.flatten = 34 :: (parts.map jsonEscapeFragment).flatten ++ [34] ∧
      jsonString (literalText l ++ r) = some (utf8Chars (literalChars l), r) :=
  ⟨jsonString_escape hs r, by rw [jsonEscape, jsonEscapeFragment_flatten], jsonString_literal hl r⟩

/-- The code unit D83D, the high half of a pair. -/
def unpairedHigh : CodeUnit := ⟨⟨13, false⟩, ⟨8, false⟩, ⟨3, false⟩, ⟨13, false⟩⟩

theorem json_string_codec_sample :
    jsonString (jsonEscape (utf8 "a\"\n") ++ utf8 "!") = some (utf8 "a\"\n", utf8 "!") ∧
      jsonEscape [utf8 "a\"", utf8 "\n"].flatten = 34 :: ([utf8 "a\"", utf8 "\n"].map jsonEscapeFragment).flatten ++ [34] ∧
      jsonString (literalText [.unit unpairedHigh, .raw 'A' (by decide)] ++ utf8 "!") =
        some (utf8Chars (literalChars [.unit unpairedHigh, .raw 'A' (by decide)]), utf8 "!") := by
  refine json_string_codec (utf8 "a\"\n") (utf8 "!") [utf8 "a\"", utf8 "\n"] _ (by decide) ?_
  intro u hu
  rcases List.mem_cons.mp hu with hu | hu
  · cases hu
    decide
  · obtain hu := List.mem_singleton.mp hu
    cases hu

/-- A lone high half before another escape is replaced, a pair is joined. -/
example : (jsonString (utf8 "\"\\ud83dA\\ud83d\\ude00\"!")).map (·.1) = some (utf8 "�A😀") := by decide +kernel

end Ds4.Server
