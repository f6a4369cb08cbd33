import Ds4.Tokenizer.Vocab

/- Byte-level BPE of ds4.c: the byte alphabet, the merge loop of one piece, the
   JoyAI pre-tokenizer and the rendered-chat scanner, with the independent
   decoder `ds4_token_text`.

   Correspondence (C ↔ Lean), every function under its own name in camel case:
     `utf8_put`, `gpt2_byte_to_codepoint`, `byte_encode`   ↔ `utf8Put`, …
     the symbol split and merge loop of `bpe_emit_piece`   ↔ `splitSymbols`, `mergeSymbols`
     one round of the loop of `bpe_tokenize_text`          ↔ `pieceLen`
     `tokenize_span`, `tokenize_rendered_chat_vocab`       ↔ `tokenizeSpan`, `tokenizeRenderedChatVocab`
     `utf8_decode_one`, `gpt2_codepoint_to_byte`           ↔ `utf8DecodeOne`, `gpt2CodepointToByte`
   A position into a C string is the suffix that starts there: the pre-tokenizer
   never looks back. Token vectors are lists, so a push is an append. -/
namespace Ds4
open Bytes

/-! ## Byte alphabet -/

/-- The bytes GPT-2 keeps as their own codepoint. -/
def printableByte (x : Nat) : Bool :=
  (33 ≤ x && x ≤ 126) || (161 ≤ x && x ≤ 172) || (174 ≤ x && x ≤ 255)

/-- The bytes that are not kept, in order: the `n`-th gets codepoint `256 + n`. -/
def remappedBytes : List Nat := (List.range 256).filter (fun x => !printableByte x)

def gpt2ByteToCodepoint (b : UInt8) : UInt32 :=
  if printableByte b.toNat then b.toUInt32
  else match remappedBytes.idxOf? b.toNat with
    | some n => UInt32.ofNat (256 + n)
    | none => b.toUInt32

def byteEncode (s : Bytes) : Bytes := s.flatMap fun b => utf8Put (gpt2ByteToCodepoint b)

def utf8LenFromFirstByte (c : UInt8) : Nat :=
  if c < 0x80 then 1
  else if c &&& 0xe0 = 0xc0 then 2
  else if c &&& 0xf0 = 0xe0 then 3
  else if c &&& 0xf8 = 0xf0 then 4
  else 1

/-- The guessed length of the first character, one byte if it is cut short. -/
def nextUtf8Char (s : Bytes) : Nat :=
  let n := utf8LenFromFirstByte (s.headD 0)
  if s.length < n then 1 else n

/-! ## One piece -/

/-- `INT32_MAX`. -/
def int32Max : Int := 2147483647

structure Vocab where
  token : List Bytes
  bosId : Int
  eosId : Int
  padId : Int
  userId : Int
  assistantId : Int
  thinkStartId : Int
  thinkEndId : Int
  dsmlId : Int
  tokenToId : StrI32Table
  mergeRank : StrI32Table

def bpeRank (v : Vocab) (a b : Bytes) : Int :=
  (tableGet v.mergeRank (a ++ 32 :: b)).getD (-1)

/-- The symbols of an encoded piece: at most `fuel` of them. -/
def splitSymbols : Nat → Bytes → List Bytes
  | 0, _ => []
  | _, [] => []
  | fuel + 1, s => s.take (nextUtf8Char s) :: splitSymbols fuel (s.drop (nextUtf8Char s))

/-- The scan for the lowest rank, the first one among equals: `best` is the
    index and the rank found so far, `i` the index of the head of the list. -/
def bestMerge (v : Vocab) (best : Option (Nat × Int)) (i : Nat) : List Bytes → Option (Nat × Int)
  | a :: b :: rest =>
    let rank := bpeRank v a b
    let bestRank := (best.map Prod.snd).getD int32Max
    bestMerge v (if 0 ≤ rank ∧ rank < bestRank then some (i, rank) else best) (i + 1) (b :: rest)
  | _ => best

/-- Symbols `i` and `i + 1` as one. -/
def mergeAt (i : Nat) (sym : List Bytes) : List Bytes :=
  sym.take i ++ ((sym.getD i []) ++ (sym.getD (i + 1) [])) :: sym.drop (i + 2)

theorem bestMerge_lt (v : Vocab) : ∀ (sym : List Bytes) (best : Option (Nat × Int)) (i : Nat),
    ∀ r, bestMerge v best i sym = some r → best = some r ∨ (i ≤ r.1 ∧ r.1 + 1 < i + sym.length ∧
      0 ≤ bpeRank v (sym.getD (r.1 - i) []) (sym.getD (r.1 - i + 1) []))
  | [], _, _, _, h => .inl h
  | [_], _, _, _, h => .inl h
  | a :: b :: rest, best, i, r, h => by
    simp only [bestMerge] at h
    rcases bestMerge_lt v (b :: rest) _ (i + 1) r h with hb | ⟨h1, h2, h3⟩
    · split at hb
      · next hc =>
        obtain rfl := Option.some.inj hb
        refine .inr ⟨Nat.le_refl i, by simp, ?_⟩
        simpa using hc.1
      · exact .inl hb
    · refine .inr ⟨by omega, by simp only [List.length_cons] at h2 ⊢; omega, ?_⟩
      rwa [show r.1 - i = (r.1 - (i + 1)) + 1 by omega, List.getD_cons_succ, List.getD_cons_succ]

theorem mergeAt_length {i : Nat} {sym : List Bytes} (h : i + 1 < sym.length) :
    (mergeAt i sym).length + 1 = sym.length := by
  simp only [mergeAt, List.length_append, List.length_take, List.length_cons, List.length_drop]
  omega

/-- The merge loop: every round joins one pair, so it ends. -/
def mergeSymbols (v : Vocab) (sym : List Bytes) : List Bytes :=
  match _hbest : bestMerge v none 0 sym with
  | none => sym
  | some best => mergeSymbols v (mergeAt best.1 sym)
termination_by sym.length
decreasing_by
  rcases bestMerge_lt v sym none 0 best _hbest with hn | ⟨_, hlt, _⟩
  · cases hn
  · have := @mergeAt_length best.1 sym (by omega)
    omega

/-- The tokens of one final symbol: its own, or, when the vocabulary lacks it,
    those of its bytes that the vocabulary has. -/
def emitSymbol (v : Vocab) (sym : Bytes) : List Int :=
  match tableGet v.tokenToId sym with
  | some token => [token]
  | none => sym.filterMap fun b => tableGet v.tokenToId [b]

def bpeEmitPiece (v : Vocab) (rawPiece : Bytes) : List Int :=
  let encoded := byteEncode rawPiece
  (mergeSymbols v (splitSymbols encoded.length encoded)).flatMap (emitSymbol v)

/-! ## Pre-tokenizer -/

def asciiAlpha (c : UInt8) : Bool := (65 ≤ c && c ≤ 90) || (97 ≤ c && c ≤ 122)
def asciiDigit (c : UInt8) : Bool := 48 ≤ c && c ≤ 57
def asciiSpace (c : UInt8) : Bool := c = 32 || (9 ≤ c && c ≤ 13)
def asciiNewline (c : UInt8) : Bool := c = 10 || c = 13

def joyaiAsciiPunctSymbol (c : UInt8) : Bool :=
  (33 ≤ c && c ≤ 47) || (58 ≤ c && c ≤ 64) || (91 ≤ c && c ≤ 96) || (123 ≤ c && c ≤ 126)

def utf8IsCjkHiraKata (cp : UInt32) : Bool :=
  (0x4e00 ≤ cp && cp ≤ 0x9fa5) || (0x3040 ≤ cp && cp ≤ 0x309f) || (0x30a0 ≤ cp && cp ≤ 0x30ff)

def utf8PeekOne (s : Bytes) : UInt32 :=
  let c0 := s.headD 0
  let low (i : Nat) : UInt32 := (s.getD i 0 &&& 0x3f).toUInt32
  match nextUtf8Char s with
  | 1 => c0.toUInt32
  | 2 => ((c0 &&& 0x1f).toUInt32 <<< 6) ||| low 1
  | 3 => ((c0 &&& 0x0f).toUInt32 <<< 12) ||| (low 1 <<< 6) ||| low 2
  | _ => ((c0 &&& 0x07).toUInt32 <<< 18) ||| (low 1 <<< 12) ||| (low 2 <<< 6) ||| low 3

def joyaiLetterLike (c : UInt8) : Bool := if c < 128 then asciiAlpha c else true

def joyaiCjkAt (s : Bytes) : Bool := if s.headD 0 < 128 then false else utf8IsCjkHiraKata (utf8PeekOne s)

/-- The character loop shared by `joyai_consume_letters` and the CJK rule: the
    bytes taken while `p` holds at the current character, `fuel` characters at most. -/
def consumeChars (p : Bytes → Bool) : Nat → Bytes → Nat
  | 0, _ => 0
  | _, [] => 0
  | fuel + 1, s =>
    if p s then nextUtf8Char s + consumeChars p fuel (s.drop (nextUtf8Char s)) else 0

def joyaiConsumeLetters (s : Bytes) : Nat :=
  consumeChars (fun s => joyaiLetterLike (s.headD 0)) s.length s

/-- Bytes taken while `p` holds. -/
def spanLen (p : UInt8 → Bool) (s : Bytes) : Nat := (s.takeWhile p).length

/-- The punctuation rule: the run, then the newlines after it. -/
def punctLen (s : Bytes) : Nat :=
  let n := spanLen joyaiAsciiPunctSymbol s
  n + spanLen asciiNewline (s.drop n)

/-- One past the last newline of the leading white space, 0 if it has none. -/
def lastNewlineEnd (s : Bytes) : Nat :=
  let ws := s.takeWhile asciiSpace
  ws.length - (ws.reverse.takeWhile (fun c => !asciiNewline c)).length

/-- The bytes the first rule that matches takes. -/
def ruleLen (s : Bytes) : Nat :=
  let c := s.headD 0
  let next := s.getD 1 0
  let more := 1 < s.length
  if asciiDigit c then min 3 (spanLen asciiDigit s)
  else if joyaiCjkAt s then
    nextUtf8Char s + consumeChars joyaiCjkAt s.length (s.drop (nextUtf8Char s))
  else if joyaiAsciiPunctSymbol c && more && asciiAlpha next then
    1 + spanLen asciiAlpha (s.drop 1)
  else if joyaiLetterLike c then joyaiConsumeLetters s
  else if !asciiNewline c && !joyaiAsciiPunctSymbol c && more && joyaiLetterLike next then
    1 + joyaiConsumeLetters (s.drop 1)
  else if c = 32 && more && joyaiAsciiPunctSymbol next then 1 + punctLen (s.drop 1)
  else if joyaiAsciiPunctSymbol c then punctLen s
  else if asciiSpace c then
    let p := spanLen asciiSpace s
    if lastNewlineEnd s ≠ 0 then lastNewlineEnd s
    else if p < s.length && 1 < p &&
        (joyaiLetterLike (s.getD p 0) || joyaiAsciiPunctSymbol (s.getD p 0)) then p - 1
    else p
  else nextUtf8Char s

/-- The length of the next piece of a non-empty text: a rule that took nothing
    still takes one character. -/
def pieceLen (s : Bytes) : Nat := if ruleLen s = 0 then nextUtf8Char s else ruleLen s

/-- The pieces of a text, `fuel` of them at most. -/
def pieces : Nat → Bytes → List Bytes
  | 0, _ => []
  | _, [] => []
  | fuel + 1, s => s.take (pieceLen s) :: pieces fuel (s.drop (pieceLen s))

def bpeTokenizeText (v : Vocab) (text : Bytes) : List Int :=
  (pieces (cstr text).length (cstr text)).flatMap (bpeEmitPiece v)

/-! ## Rendered chat -/

/-- The special tokens with their texts, in the order `special_token_at` tries them. -/
def specials (v : Vocab) : List (Bytes × Int) :=
  [(utf8 "<｜begin▁of▁sentence｜>", v.bosId), (utf8 "<｜end▁of▁sentence｜>", v.eosId),
    (utf8 "<｜User｜>", v.userId), (utf8 "<｜Assistant｜>", v.assistantId),
    (utf8 "<think>", v.thinkStartId), (utf8 "</think>", v.thinkEndId),
    (utf8 "｜DSML｜", v.dsmlId)]

def specialTokenAt (v : Vocab) (p : Bytes) : Option (Bytes × Int) :=
  (specials v).find? fun sp => startsWith sp.1 p

def tokenizeSpan (v : Vocab) (span : Bytes) : List Int :=
  if span = [] then [] else bpeTokenizeText v span

/-- The scanner loop: `span` is the ordinary text since the last special token,
    `p` the text still to be scanned. -/
def scanRendered (v : Vocab) : Nat → Bytes → Bytes → List Int
  | _, span, [] => tokenizeSpan v span
  | 0, span, _ => tokenizeSpan v span
  | fuel + 1, span, c :: p =>
    match specialTokenAt v (c :: p) with
    | some (text, token) =>
      tokenizeSpan v span ++ token :: scanRendered v fuel [] ((c :: p).drop text.length)
    | none => scanRendered v fuel (span ++ [c]) p

def tokenizeRenderedChatVocab (v : Vocab) (text : Bytes) : List Int :=
  scanRendered v (cstr text).length [] (cstr text)

/-! ## Decoder -/

/-- One code point and the bytes it took. -/
def utf8DecodeOne (s : Bytes) : UInt32 × Nat :=
  let c := s.headD 0
  let low (i : Nat) : UInt32 := (s.getD i 0 &&& 0x3f).toUInt32
  if c < 0x80 || s.length ≤ 1 then (c.toUInt32, 1)
  else if c &&& 0xe0 = 0xc0 && 1 < s.length then (((c &&& 0x1f).toUInt32 <<< 6) ||| low 1, 2)
  else if c &&& 0xf0 = 0xe0 && 2 < s.length then
    (((c &&& 0x0f).toUInt32 <<< 12) ||| (low 1 <<< 6) ||| low 2, 3)
  else if c &&& 0xf8 = 0xf0 && 3 < s.length then
    (((c &&& 0x07).toUInt32 <<< 18) ||| (low 1 <<< 12) ||| (low 2 <<< 6) ||| low 3, 4)
  else (c.toUInt32, 1)

def gpt2CodepointToByte (cp : UInt32) : Option UInt8 :=
  if printableByte cp.toNat then some cp.toUInt8
  else if 256 ≤ cp.toNat then (remappedBytes[cp.toNat - 256]?).map UInt8.ofNat
  else none

/-- Whether the token holds U+FF5C anywhere. -/
def vocabTokenIsLiteralSpecial (s : Bytes) : Bool := s.tails.any (startsWith [0xef, 0xbd, 0x9c])

/-- The decoding loop, `fuel` code points at most. -/
def decodeSymbols : Nat → Bytes → Bytes
  | 0, _ => []
  | _, [] => []
  | fuel + 1, s =>
    let (cp, n) := utf8DecodeOne s
    (gpt2CodepointToByte cp).toList ++ decodeSymbols fuel (s.drop n)

/-- `ds4_token_text`, as the bytes of `out` with their length. -/
def ds4TokenText (v : Vocab) (token : Int) : Bytes :=
  match if token < 0 then none else v.token[token.toNat]? with
  | none => []
  | some s => if vocabTokenIsLiteralSpecial s then s else decodeSymbols s.length s

/-! ## Loading -/

def vocabLookup (tokenToId : StrI32Table) (text : Bytes) : Option Int := tableGet tokenToId text

/-- The index each string is stored under: tokens and merge ranks alike. -/
def indexed (ss : List Bytes) : List (Bytes × Int) := ss.zipIdx.map fun e => (e.1, cInt e.2)

def vocabLoad (tokens merges : List Bytes) : Option Vocab :=
  if int32Max < tokens.length then none
  else do
    let tokenToId := tableFill (indexed tokens)
    let mergeRank := tableFill (indexed merges)
    let bosId ← vocabLookup tokenToId (utf8 "<｜begin▁of▁sentence｜>")
    let eosId ← vocabLookup tokenToId (utf8 "<｜end▁of▁sentence｜>")
    let padId := ((tableGet tokenToId (utf8 "<｜▁pad▁｜>")) <|>
      (tableGet tokenToId (utf8 "<｜pad｜>"))).getD (-1)
    let userId ← vocabLookup tokenToId (utf8 "<｜User｜>")
    let assistantId ← vocabLookup tokenToId (utf8 "<｜Assistant｜>")
    let thinkStartId ← vocabLookup tokenToId (utf8 "<think>")
    let thinkEndId ← vocabLookup tokenToId (utf8 "</think>")
    let dsmlId ← vocabLookup tokenToId (utf8 "｜DSML｜")
    some { token := tokens, bosId, eosId, padId, userId, assistantId, thinkStartId, thinkEndId,
           dsmlId, tokenToId, mergeRank }

end Ds4
