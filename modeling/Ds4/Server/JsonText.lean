import Ds4.Bytes

/- JSON strings of ds4_server.c: the reader `json_string`, the writer
   `json_escape`, and the spelling of a string body between its quotes.

   PROVED here: `json_string` reads back what `json_escape` wrote and stops
   right after it (`jsonString_escape`); it accepts exactly the bodies that
   `JsonBody` spells (`jsonString_sound`, `jsonString_complete`), whatever
   follows the closing quote.

   Correspondence (C ↔ Lean):
     `json_ws`                          ↔ `Bytes.skipWs`
     `json_hex`, `json_u16`, `utf8_put` ↔ `jsonHex`, `jsonU16`, `utf8Put`
     one round of the `json_string` loop ↔ `jsonChar`, the loop ↔ `jsonStringBody`
     `json_escape`, `json_escape_fragment_n` ↔ `jsonEscape`, `jsonEscapeFragment`
   A cursor `const char **p` is the text from it on: the functions return the
   value and the new cursor. A `buf` taken as a C string ends at its first NUL,
   which a `\u0000` can put inside it. -/
namespace Ds4.Server
open Bytes

/-! ## Reader -/

def jsonHex (c : UInt8) : Option UInt32 :=
  if 48 ≤ c ∧ c ≤ 57 then some (c - 48).toUInt32
  else if 97 ≤ c ∧ c ≤ 102 then some (c - 87).toUInt32
  else if 65 ≤ c ∧ c ≤ 70 then some (c - 55).toUInt32
  else none

def utf8Put (cp : UInt32) : Bytes :=
  Bytes.utf8Put (if cp > 0x10ffff ∨ (0xd800 ≤ cp ∧ cp ≤ 0xdfff) then 0xfffd else cp)

def jsonHex4 (a b c d : UInt8) : Option UInt32 := do
  let a ← jsonHex a
  let b ← jsonHex b
  let c ← jsonHex c
  let d ← jsonHex d
  some ((((a <<< 4 ||| b) <<< 4 ||| c) <<< 4) ||| d)

/-- `\uXXXX`: the code unit and the text after it. -/
def jsonU16 : Bytes → Option (UInt32 × Bytes)
  | 92 :: 117 :: a :: b :: c :: d :: s => (jsonHex4 a b c d).map fun v => (v, s)
  | _ => none

/-- The escapes of one letter. -/
def jsonSimple (c : UInt8) : Option UInt8 :=
  if c = 34 then some 34 else if c = 92 then some 92 else if c = 47 then some 47
  else if c = 98 then some 8 else if c = 102 then some 12 else if c = 110 then some 10
  else if c = 114 then some 13 else if c = 116 then some 9 else none

def isLow (v : UInt32) : Bool := 0xdc00 ≤ v && v ≤ 0xdfff

/-- A code unit was read: the bytes it puts, with the low surrogate if it needs
    one and it is there. -/
def jsonPair (v : UInt32) (s : Bytes) : Bytes × Bytes :=
  if 0xd800 ≤ v ∧ v ≤ 0xdbff then
    match jsonU16 s with
    | some (lo, r) =>
      if isLow lo then (utf8Put (((v - 0xd800) <<< 10) + 0x10000 + (lo - 0xdc00)), r)
      else (utf8Put 0xfffd, s)
    | none => (utf8Put 0xfffd, s)
  else (utf8Put v, s)

/-- One round of the loop: the bytes put and the text after it. -/
def jsonChar : Bytes → Option (Bytes × Bytes)
  | [] => none
  | c :: s =>
    if c ≠ 92 then some ([c], s)
    else match s with
      | [] => none
      | e :: r =>
        if e = 117 then (jsonU16 (c :: s)).map fun v => jsonPair v.1 v.2
        else (jsonSimple e).map fun b => ([b], r)

/-- The loop and the closing quote; every round takes a byte or more. -/
def jsonStringBody : Nat → Bytes → Option (Bytes × Bytes)
  | _, [] => none
  | 0, _ => none
  | fuel + 1, c :: s =>
    if c = 34 then some ([], s)
    else do
      let (b, r) ← jsonChar (c :: s)
      let (out, r') ← jsonStringBody fuel r
      some (b ++ out, r')

/-- The value, as a C string, and the text after the closing quote. -/
def jsonString (s : Bytes) : Option (Bytes × Bytes) :=
  match skipWs s with
  | 34 :: r => (jsonStringBody r.length r).map fun (out, r') => (cstr out, r')
  | _ => none

theorem jsonString_quote (r : Bytes) :
    jsonString (34 :: r) = (jsonStringBody r.length r).map fun v => (cstr v.1, v.2) := rfl

/-! ## Writer -/

def hexDigit (n : UInt8) : UInt8 := if n < 10 then 48 + n else 87 + n

def jsonEscapeByte (c : UInt8) : Bytes :=
  if c = 34 ∨ c = 92 then [92, c]
  else if c = 10 then [92, 110]
  else if c = 13 then [92, 114]
  else if c = 9 then [92, 116]
  else if c < 0x20 then [92, 117, 48, 48, hexDigit (c >>> 4), hexDigit (c &&& 15)]
  else [c]

def jsonEscapeFragment (s : Bytes) : Bytes := s.flatMap jsonEscapeByte

def jsonEscape (s : Bytes) : Bytes := 34 :: jsonEscapeFragment s ++ [34]

/-! ## The spelling of a string -/

/-- One character of a string body, as it is spelled. -/
inductive JsonCharTok : Bytes → Prop
  | plain {c : UInt8} : c ≠ 34 → c ≠ 92 → JsonCharTok [c]
  | escape {c : UInt8} : (jsonSimple c).isSome → JsonCharTok [92, c]
  | unicode {a b c d : UInt8} : (jsonHex4 a b c d).isSome → JsonCharTok [92, 117, a, b, c, d]

/-- A string body: what stands between the quotes. -/
inductive JsonBody : Bytes → Prop
  | nil : JsonBody []
  | cons {t s : Bytes} : JsonCharTok t → JsonBody s → JsonBody (t ++ s)

theorem JsonCharTok.hex {a b c d : UInt8} (h : (jsonHex4 a b c d).isSome) :
    ∀ x ∈ [a, b, c, d], (jsonHex x).isSome := by
  obtain ⟨v, hv⟩ := Option.isSome_iff_exists.mp h
  simp only [jsonHex4, Option.bind_eq_bind, Option.bind_eq_some_iff] at hv
  obtain ⟨_, ha, _, hb, _, hc, _, hd, -⟩ := hv
  simp [ha, hb, hc, hd]

theorem JsonBody.append {s t : Bytes} (hs : JsonBody s) (ht : JsonBody t) : JsonBody (s ++ t) := by
  induction hs with
  | nil => exact ht
  | cons h _ ih =>
    rw [List.append_assoc]
    exact .cons h ih

theorem JsonCharTok.body {t : Bytes} (h : JsonCharTok t) : JsonBody t := by
  rw [← List.append_nil t]
  exact .cons h .nil

theorem JsonCharTok.ne_nil {t : Bytes} (h : JsonCharTok t) : t ≠ [] := by cases h <;> simp

theorem JsonBody.head_ne_quote {c : UInt8} {s : Bytes} (h : JsonBody (c :: s)) : c ≠ 34 := by
  generalize he : c :: s = u at h
  cases h with
  | nil => cases he
  | cons ht _ =>
    cases ht with
    | plain h34 _ => exact (List.cons.inj he).1 ▸ h34
    | escape _ => exact (List.cons.inj he).1 ▸ by decide
    | unicode _ => exact (List.cons.inj he).1 ▸ by decide

theorem jsonU16_sound {s r : Bytes} {v : UInt32} (h : jsonU16 s = some (v, r)) :
    ∃ t, JsonCharTok t ∧ s = t ++ r := by
  unfold jsonU16 at h
  split at h
  · next a b c d s =>
    obtain ⟨v', hv, he⟩ := Option.map_eq_some_iff.mp h
    cases he
    exact ⟨[92, 117, a, b, c, d], .unicode (by rw [hv]; rfl), rfl⟩
  · cases h

theorem jsonPair_sound (v : UInt32) (s : Bytes) :
    ∃ t, JsonBody t ∧ s = t ++ (jsonPair v s).2 := by
  unfold jsonPair
  split
  · split
    · next lo r h =>
      split
      · obtain ⟨t, ht, he⟩ := jsonU16_sound h
        exact ⟨t, ht.body, he⟩
      · exact ⟨[], .nil, rfl⟩
    · exact ⟨[], .nil, rfl⟩
  · exact ⟨[], .nil, rfl⟩

/-- A round reads one character, or the two of a surrogate pair. -/
theorem jsonChar_sound {c : UInt8} {s b r : Bytes} (hc : c ≠ 34)
    (h : jsonChar (c :: s) = some (b, r)) : ∃ t, JsonBody t ∧ c :: s = t ++ r := by
  unfold jsonChar at h
  dsimp only at h
  split at h
  · next h92 =>
    cases h
    exact ⟨[c], (JsonCharTok.plain hc h92).body, rfl⟩
  · next h92 =>
    obtain rfl : c = 92 := by simpa using h92
    split at h
    · cases h
    · next e r' =>
      split at h
      · obtain ⟨⟨v, r1⟩, h1, he⟩ := Option.map_eq_some_iff.mp h
        obtain ⟨t, ht, heq⟩ := jsonU16_sound h1
        obtain ⟨t', ht', heq'⟩ := jsonPair_sound v r1
        rw [show jsonPair v r1 = (b, r) from he] at heq'
        exact ⟨t ++ t', .cons ht ht', by rw [heq, heq', List.append_assoc]⟩
      · obtain ⟨b', hb, he⟩ := Option.map_eq_some_iff.mp h
        cases he
        exact ⟨[92, e], (JsonCharTok.escape (by rw [hb]; rfl)).body, rfl⟩

theorem jsonStringBody_sound : ∀ {fuel : Nat} {s out r : Bytes},
    jsonStringBody fuel s = some (out, r) → ∃ t, JsonBody t ∧ s = t ++ 34 :: r
  | 0, [], _, _, h => by cases h
  | 0, _ :: _, _, _, h => by cases h
  | _ + 1, [], _, _, h => by cases h
  | fuel + 1, c :: s, out, r, h => by
    rw [jsonStringBody] at h
    split at h
    · next hc =>
      cases h
      exact ⟨[], .nil, by rw [hc]; rfl⟩
    · next hc =>
      simp only [Option.bind_eq_bind, Option.bind_eq_some_iff] at h
      obtain ⟨⟨b, r1⟩, h1, ⟨out', r2⟩, h2, he⟩ := h
      cases he
      obtain ⟨t, ht, heq⟩ := jsonChar_sound hc h1
      obtain ⟨t', ht', heq'⟩ := jsonStringBody_sound h2
      dsimp only at heq' ⊢
      exact ⟨t ++ t', ht.append ht', by rw [heq, heq', List.append_assoc]⟩

/-- What the reader accepts is a spelled string, and it stops after its quote. -/
theorem jsonString_sound {s out r : Bytes} (h : jsonString s = some (out, r)) :
    ∃ t, JsonBody t ∧ skipWs s = 34 :: t ++ 34 :: r := by
  unfold jsonString at h
  split at h
  · next r' heq =>
    obtain ⟨⟨o, r1⟩, h1, he⟩ := Option.map_eq_some_iff.mp h
    cases he
    obtain ⟨t, ht, rfl⟩ := jsonStringBody_sound h1
    exact ⟨t, ht, heq⟩
  · cases h

theorem jsonSimple_u : jsonSimple 117 = none := by decide

/-- A code unit is ahead of the closing quote or it is not: what follows the
    quote does not matter. -/
theorem jsonU16_body {s : Bytes} (h : JsonBody s) :
    (∃ v t s', t ≠ [] ∧ s = t ++ s' ∧ JsonBody s' ∧
      ∀ k, jsonU16 (s ++ 34 :: k) = some (v, s' ++ 34 :: k)) ∨
    ∀ k, jsonU16 (s ++ 34 :: k) = none := by
  cases h with
  | nil => exact .inr fun k => rfl
  | @cons t s ht hs =>
    cases ht with
    | plain h34 h92 => exact .inr fun k => by simp [jsonU16, h92]
    | @escape c hc =>
      refine .inr fun k => ?_
      have : c ≠ 117 := by
        rintro rfl
        rw [jsonSimple_u] at hc
        cases hc
      simp [jsonU16, this]
    | @unicode a b c d hv =>
      obtain ⟨v, hv⟩ := Option.isSome_iff_exists.mp hv
      refine .inl ⟨v, [92, 117, a, b, c, d], s, by simp, rfl, hs, fun k => ?_⟩
      simp only [List.cons_append, List.nil_append, jsonU16, hv, Option.map_some]

theorem jsonPair_complete (v : UInt32) {s : Bytes} (h : JsonBody s) :
    ∃ b t s', s = t ++ s' ∧ JsonBody s' ∧ ∀ k, jsonPair v (s ++ 34 :: k) = (b, s' ++ 34 :: k) := by
  unfold jsonPair
  split
  · rcases jsonU16_body h with ⟨lo, t, s', -, he, hs', hk⟩ | hk
    · cases hl : isLow lo with
      | true => exact ⟨_, t, s', he, hs', fun k => by simp only [hk, hl, if_true]; rfl⟩
      | false => exact ⟨_, [], s, rfl, h, fun k => by simp only [hk, hl, Bool.false_eq_true, if_false]; rfl⟩
    · exact ⟨_, [], s, rfl, h, fun k => by rw [hk]⟩
  · exact ⟨_, [], s, rfl, h, fun k => rfl⟩

/-- The first round over a spelled body takes one of its characters, or two. -/
theorem jsonChar_complete {t : Bytes} (h : JsonBody t) (hne : t ≠ []) :
    ∃ b t1 t2, t1 ≠ [] ∧ t = t1 ++ t2 ∧ JsonBody t2 ∧
      ∀ k, jsonChar (t ++ 34 :: k) = some (b, t2 ++ 34 :: k) := by
  cases h with
  | nil => exact absurd rfl hne
  | @cons t s ht hs =>
    cases ht with
    | @plain c h34 h92 => exact ⟨[c], [c], s, by simp, rfl, hs, fun k => by simp [jsonChar, h92]⟩
    | @escape c hc =>
      obtain ⟨b, hb⟩ := Option.isSome_iff_exists.mp hc
      refine ⟨[b], [92, c], s, by simp, rfl, hs, fun k => ?_⟩
      have : c ≠ 117 := by
        rintro rfl
        rw [jsonSimple_u] at hb
        cases hb
      simp [jsonChar, this, hb]
    | @unicode a b c d hv =>
      obtain ⟨v, hv⟩ := Option.isSome_iff_exists.mp hv
      obtain ⟨o, t', s', he, hs', hk⟩ := jsonPair_complete v hs
      refine ⟨o, [92, 117, a, b, c, d] ++ t', s', by simp, by rw [he, List.append_assoc], hs', fun k => ?_⟩
      simp only [List.cons_append, List.nil_append, jsonChar, jsonU16, hv, Option.map_some, hk,
        ne_eq, not_true_eq_false, if_false, if_true]

theorem jsonStringBody_complete : ∀ (n : Nat) {t : Bytes}, JsonBody t → t.length ≤ n →
    ∃ out, ∀ fuel k, t.length < fuel → jsonStringBody fuel (t ++ 34 :: k) = some (out, k)
  | _, [], _, _ => ⟨[], fun fuel k h => by
    cases fuel with
    | zero => cases h
    | succ fuel => simp [jsonStringBody]⟩
  | 0, _ :: _, _, h => absurd h (by simp)
  | n + 1, c :: t, ht, h => by
    obtain ⟨b, t1, t2, hne, he, ht2, hk⟩ := jsonChar_complete ht (by simp)
    have hlen : t2.length < (c :: t).length := by
      have h1 := congrArg List.length he
      have h2 := List.length_pos_of_ne_nil hne
      rw [List.length_append] at h1
      omega
    obtain ⟨out, hout⟩ := jsonStringBody_complete n ht2 (by omega)
    have hc : c ≠ 34 := ht.head_ne_quote
    refine ⟨b ++ out, fun fuel k hfuel => ?_⟩
    cases fuel with
    | zero => cases hfuel
    | succ fuel =>
      have hk := hk k
      rw [List.cons_append] at hk ⊢
      rw [jsonStringBody, if_neg hc, hk]
      simp only [Option.bind_eq_bind, Option.bind_some, hout fuel k (by omega)]

/-- Every spelled string is read whole and as one value, whatever follows its
    closing quote. -/
theorem jsonString_complete {t : Bytes} (h : JsonBody t) :
    ∃ out, ∀ k, jsonString (34 :: t ++ 34 :: k) = some (out, k) := by
  obtain ⟨out, hout⟩ := jsonStringBody_complete t.length h (Nat.le_refl _)
  refine ⟨cstr out, fun k => ?_⟩
  rw [List.cons_append, jsonString_quote, hout _ _ (by rw [List.length_append, List.length_cons]; omega)]
  rfl

/-! ## Round trip -/

/-- A control byte is spelled as its own code unit. -/
theorem jsonHex4_control : ∀ n < 32,
    (jsonHex4 48 48 (hexDigit (UInt8.ofNat n >>> 4)) (hexDigit (UInt8.ofNat n &&& 15))).any
      (fun v => decide (v < 0xd800) && utf8Put v == [UInt8.ofNat n]) = true := by
  decide

/-- One round reads back one escaped byte. -/
theorem jsonChar_escapeByte (c : UInt8) (s : Bytes) :
    ∃ d r, jsonEscapeByte c = d :: r ∧ d ≠ 34 ∧ jsonChar (d :: r ++ s) = some ([c], s) := by
  unfold jsonEscapeByte
  split
  · next h => exact ⟨92, [c], rfl, by decide, by rcases h with rfl | rfl <;> rfl⟩
  · next hq =>
    split
    · next h => exact ⟨92, [110], rfl, by decide, by rw [h]; rfl⟩
    · split
      · next h => exact ⟨92, [114], rfl, by decide, by rw [h]; rfl⟩
      · split
        · next h => exact ⟨92, [116], rfl, by decide, by rw [h]; rfl⟩
        · split
          · next h =>
            refine ⟨92, [117, 48, 48, hexDigit (c >>> 4), hexDigit (c &&& 15)], rfl, by decide, ?_⟩
            have hv := jsonHex4_control c.toNat (UInt8.lt_iff_toNat_lt.mp h)
            rw [UInt8.ofNat_toNat, Option.any_eq_true] at hv
            obtain ⟨v, hv, hp⟩ := hv
            rw [Bool.and_eq_true, decide_eq_true_eq, beq_iff_eq] at hp
            have hs : ¬ (0xd800 ≤ v ∧ v ≤ 0xdbff) := fun h => absurd hp.1 (UInt32.not_lt.mpr h.1)
            simp only [List.cons_append, List.nil_append, jsonChar, jsonU16, hv, Option.map_some,
              jsonPair, hs, hp.2, ne_eq, not_true_eq_false, if_false, if_true]
          · next h =>
            rw [not_or] at hq
            exact ⟨c, [], rfl, hq.1, by simp [jsonChar, hq.2]⟩

theorem jsonStringBody_escape (k : Bytes) : ∀ (fuel : Nat) (s : Bytes),
    s.length < fuel → jsonStringBody fuel (jsonEscapeFragment s ++ 34 :: k) = some (s, k)
  | 0, _, h => absurd h (Nat.not_lt_zero _)
  | fuel + 1, [], _ => by simp [jsonEscapeFragment, jsonStringBody]
  | fuel + 1, c :: s, h => by
    have ih := jsonStringBody_escape k fuel s (by simpa using h)
    obtain ⟨d, r, he, hd, hchar⟩ := jsonChar_escapeByte c (jsonEscapeFragment s ++ 34 :: k)
    rw [jsonEscapeFragment, List.flatMap_cons, he, List.append_assoc, List.cons_append,
      jsonStringBody, if_neg hd, ← List.cons_append]
    rw [show s.flatMap jsonEscapeByte = jsonEscapeFragment s from rfl, hchar]
    simp only [Option.bind_eq_bind, Option.bind_some, ih]
    rfl

theorem length_jsonEscapeFragment (s : Bytes) : s.length ≤ (jsonEscapeFragment s).length := by
  induction s with
  | nil => exact Nat.le_refl _
  | cons c s ih =>
    obtain ⟨d, r, he, -⟩ := jsonChar_escapeByte c []
    rw [jsonEscapeFragment, List.flatMap_cons, he]
    simp only [List.length_append, List.length_cons]
    have : (s.flatMap jsonEscapeByte).length = (jsonEscapeFragment s).length := rfl
    omega

/-- **The reader inverts the writer**, and stops right after the closing quote. -/
theorem jsonString_escape {s : Bytes} (h : (0 : UInt8) ∉ s) (k : Bytes) :
    jsonString (jsonEscape s ++ k) = some (s, k) := by
  have hlen := length_jsonEscapeFragment s
  rw [jsonEscape, List.append_assoc, List.cons_append, jsonString_quote, List.singleton_append,
    jsonStringBody_escape k _ s (by rw [List.length_append, List.length_cons]; omega)]
  simp only [Option.map_some, cstr_of_no_nul h]

theorem hexDigit_control : ∀ n < 32,
    (jsonHex4 48 48 (hexDigit (UInt8.ofNat n >>> 4)) (hexDigit (UInt8.ofNat n &&& 15))).isSome = true := by
  decide

/-- What the writer puts between the quotes is a string body. -/
theorem jsonEscapeByte_body (c : UInt8) : JsonBody (jsonEscapeByte c) := by
  unfold jsonEscapeByte
  split
  · next h => rcases h with rfl | rfl <;> exact (JsonCharTok.escape (by decide)).body
  · next hq =>
    split
    · exact (JsonCharTok.escape (by decide)).body
    · split
      · exact (JsonCharTok.escape (by decide)).body
      · split
        · exact (JsonCharTok.escape (by decide)).body
        · split
          · next h =>
            have hv := hexDigit_control c.toNat (UInt8.lt_iff_toNat_lt.mp h)
            rw [UInt8.ofNat_toNat] at hv
            exact (JsonCharTok.unicode hv).body
          · rw [not_or] at hq
            exact (JsonCharTok.plain hq.1 hq.2).body

theorem jsonEscapeFragment_body (s : Bytes) : JsonBody (jsonEscapeFragment s) := by
  induction s with
  | nil => exact .nil
  | cons c s ih =>
    rw [jsonEscapeFragment, List.flatMap_cons]
    exact (jsonEscapeByte_body c).append ih

/-- `s` is a string literal that reads as `v`. -/
def StringSpell (s v : Bytes) : Prop :=
  ∃ body, JsonBody body ∧ s = 34 :: body ++ [34] ∧ ∀ k, jsonString (s ++ k) = some (v, k)

theorem stringSpell_escape {v : Bytes} (h : (0 : UInt8) ∉ v) : StringSpell (jsonEscape v) v :=
  ⟨jsonEscapeFragment v, jsonEscapeFragment_body v, rfl, jsonString_escape h⟩

theorem JsonBody.stringSpell {t : Bytes} (h : JsonBody t) : ∃ v, StringSpell (34 :: t ++ [34]) v := by
  obtain ⟨v, hv⟩ := jsonString_complete h
  refine ⟨v, t, h, rfl, fun k => ?_⟩
  rw [List.append_assoc]
  exact hv k

end Ds4.Server
