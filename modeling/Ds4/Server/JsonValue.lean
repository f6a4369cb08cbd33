import Ds4.Server.JsonText

/- JSON values of ds4_server.c: the skipper `json_skip_value_depth` with its
   nesting ceiling, and `json_minify_raw_value`.

   `JsonSpell` is the spelling the skipper accepts, each spelled form with its
   minified one. PROVED here: the skipper accepts only spelled values
   (`jsonSkipValue_sound`), takes every spelled value whole when no byte of a
   number follows it (`jsonSkipValue_complete`), and the minifier turns the
   spelled form into the minified one (`jsonMinify_spell`).

   Correspondence (C ↔ Lean):
     `json_number` (`strtod`)              ↔ `jsonNumber` (`strtod`)
     `json_skip_array_depth`, `json_skip_object_depth`, `json_skip_value_depth`
                                           ↔ `jsonSkipArray`, `jsonSkipObject`, `jsonSkipValueDepth`
     `json_raw_value`, `json_minify_raw_value` ↔ `jsonRawValue`, `jsonMinifyRawValue`
   `jsonSkipValueDepth` counts the levels left of `JSON_MAX_NESTING`, the source
   counts the levels taken. `strtod` is the C library's: it takes the longest
   prefix of the expected form, in the C locale. -/
namespace Ds4.Server
open Bytes

/-! ## Numbers -/

def isDigit (c : UInt8) : Bool := 48 ≤ c && c ≤ 57

def isHexDigit (c : UInt8) : Bool := (jsonHex c).isSome

def isAlpha (c : UInt8) : Bool := (65 ≤ c && c ≤ 90) || (97 ≤ c && c ≤ 122)

def skipSign : Bytes → Bytes
  | [] => []
  | c :: s => if c = 43 ∨ c = 45 then s else c :: s

/-- Nothing, or an exponent with at least one digit. -/
def exponentForm (e : UInt8) : Bytes → Bool
  | [] => true
  | c :: s => toLower c == e && !(skipSign s).isEmpty && (skipSign s).all isDigit

/-- Digits with at most one point and at least one digit, then an exponent. -/
def mantissaForm (digit : UInt8 → Bool) (e : UInt8) (s : Bytes) : Bool :=
  match s.dropWhile digit with
  | 46 :: r =>
    exponentForm e (r.dropWhile digit) && (s.headD 46 != 46 || digit (r.headD 46))
  | r => exponentForm e r && digit (s.headD 46)

/-- `nan`, or `nan(...)` with letters, digits and underscores inside. -/
def nanForm : Bytes → Bool
  | [] => true
  | c :: s => c == 40 && s.getLast? == some 41 && s.dropLast.all fun x => isAlpha x || isDigit x || x == 95

/-- The expected form of `strtod`. -/
def numberForm (s : Bytes) : Bool :=
  let s := skipSign s
  let word := s.map toLower
  mantissaForm isDigit 101 s ||
  (startsWith (utf8 "0x") word && mantissaForm isHexDigit 112 (s.drop 2)) ||
  word == utf8 "inf" || word == utf8 "infinity" ||
  (startsWith (utf8 "nan") word && nanForm (s.drop 3))

/-- The longest prefix of at most `n` bytes with the form. -/
def longestPrefix (form : Bytes → Bool) : Nat → Bytes → Option (Bytes × Bytes)
  | 0, _ => none
  | n + 1, s =>
    if form (s.take (n + 1)) then some (s.take (n + 1), s.drop (n + 1))
    else longestPrefix form n s

/-- `strtod`: the subject sequence and the text after it. -/
def strtod (s : Bytes) : Option (Bytes × Bytes) := longestPrefix numberForm s.length (skipWs s)

def jsonNumber (s : Bytes) : Option Bytes := (strtod (skipWs s)).map Prod.snd

/-! ## Skipper -/

def jsonMaxNesting : Nat := 256

/-- The loop of arrays and objects: items between commas up to `close`. -/
def jsonSkipItems (item : Bytes → Option Bytes) (close : UInt8) : Nat → Bytes → Option Bytes
  | 0, _ => none
  | fuel + 1, s =>
    match (item s).map skipWs with
    | some (c :: r) =>
      if c = close then some r
      else if c = 44 then jsonSkipItems item close fuel r
      else none
    | _ => none

/-- The brackets around the loop. -/
def jsonSkipSeq (item : Bytes → Option Bytes) (opening close : UInt8) (s : Bytes) : Option Bytes :=
  match skipWs s with
  | c :: r =>
    if c = opening then
      match skipWs r with
      | c' :: r' =>
        if c' = close then some r' else jsonSkipItems item close (r'.length + 1) (c' :: r')
      | [] => none
    else none
  | [] => none

def jsonSkipArray (value : Bytes → Option Bytes) (s : Bytes) : Option Bytes :=
  jsonSkipSeq value 91 93 s

/-- A key, a colon and a value. -/
def jsonSkipMember (value : Bytes → Option Bytes) (s : Bytes) : Option Bytes :=
  match (jsonString s).map fun v => skipWs v.2 with
  | some (c :: r) => if c = 58 then value r else none
  | _ => none

def jsonSkipObject (value : Bytes → Option Bytes) (s : Bytes) : Option Bytes :=
  jsonSkipSeq (jsonSkipMember value) 123 125 s

/-- The dispatch on the first byte. -/
def jsonSkipAny (array object : Bytes → Option Bytes) (s : Bytes) : Option Bytes :=
  let s := skipWs s
  if startsWith [34] s then (jsonString s).map Prod.snd
  else if startsWith [123] s then object s
  else if startsWith [91] s then array s
  else if startsWith (utf8 "true") s then some (s.drop 4)
  else if startsWith (utf8 "false") s then some (s.drop 5)
  else if startsWith (utf8 "null") s then some (s.drop 4)
  else jsonNumber s

def jsonSkipValueDepth : Nat → Bytes → Option Bytes
  | 0, s => jsonSkipAny (fun _ => none) (fun _ => none) s
  | left + 1, s =>
    jsonSkipAny (jsonSkipArray (jsonSkipValueDepth left)) (jsonSkipObject (jsonSkipValueDepth left)) s

def jsonSkipValue (s : Bytes) : Option Bytes := jsonSkipValueDepth jsonMaxNesting s

/-- The bytes of one value and the text after it. -/
def jsonRawValue (s : Bytes) : Option (Bytes × Bytes) :=
  let s := skipWs s
  (jsonSkipValue s).map fun r => (s.take (s.length - r.length), r)

/-! ## Minifier -/

/-- The copy loop with its two flags. -/
def jsonMinifyLoop : Bool → Bool → Bytes → Bytes
  | _, _, [] => []
  | true, escape, c :: s =>
    c :: (if escape then jsonMinifyLoop true false s
      else if c = 92 then jsonMinifyLoop true true s
      else jsonMinifyLoop (c != 34) false s)
  | false, _, c :: s =>
    if c = 34 then c :: jsonMinifyLoop true false s
    else if isSpace c then jsonMinifyLoop false false s
    else c :: jsonMinifyLoop false false s

def jsonMinifyRawValue (json : Bytes) : Bytes :=
  match jsonRawValue json with
  | some (raw, _) => jsonMinifyLoop false false raw
  | none => json

/-! ## The spelling of a value -/

/-- The bytes a number can hold. -/
def numberByte (c : UInt8) : Bool :=
  isAlpha c || isDigit c || c == 43 || c == 45 || c == 46 || c == 40 || c == 41 || c == 95

/-- Text that cannot continue a number. -/
def Delimited (k : Bytes) : Prop := ∀ c r, k = c :: r → numberByte c = false

def Blank (w : Bytes) : Prop := ∀ c ∈ w, isSpace c = true

inductive JsonKind
  | value
  | item (object : Bool)
  | items (object : Bool)

def opening (object : Bool) : UInt8 := if object then 123 else 91

def closing (object : Bool) : UInt8 := if object then 125 else 93

/-- `JsonSpell kind d v m`: `v` spells a value with at most `d` levels of
    brackets (or one item of an array or object, or its items up to the closing
    bracket), and `m` is the same without its blanks. -/
inductive JsonSpell : JsonKind → Nat → Bytes → Bytes → Prop
  | string {d : Nat} {t : Bytes} : JsonBody t → JsonSpell .value d (34 :: t ++ [34]) (34 :: t ++ [34])
  | word {d : Nat} {t : Bytes} : t ∈ [utf8 "true", utf8 "false", utf8 "null"] → JsonSpell .value d t t
  | number {d : Nat} {t : Bytes} : t ≠ [] → numberForm t = true → JsonSpell .value d t t
  | empty {d : Nat} {w : Bytes} (b : Bool) : Blank w →
      JsonSpell .value (d + 1) (opening b :: w ++ [closing b]) [opening b, closing b]
  | node {d : Nat} {s m : Bytes} (b : Bool) : JsonSpell (.items b) d s m →
      JsonSpell .value (d + 1) (opening b :: s) (opening b :: m)
  | element {d : Nat} {w v m : Bytes} : Blank w → JsonSpell .value d v m →
      JsonSpell (.item false) d (w ++ v) m
  | member {d : Nat} {w key w1 w2 v m : Bytes} : Blank w → JsonBody key → Blank w1 → Blank w2 →
      JsonSpell .value d v m →
      JsonSpell (.item true) d (w ++ (34 :: key ++ 34 :: (w1 ++ 58 :: (w2 ++ v))))
        (34 :: key ++ 34 :: 58 :: m)
  | last {d : Nat} {i w m : Bytes} (b : Bool) : JsonSpell (.item b) d i m → Blank w →
      JsonSpell (.items b) d (i ++ (w ++ [closing b])) (m ++ [closing b])
  | cons {d : Nat} {i w m s ms : Bytes} (b : Bool) : JsonSpell (.item b) d i m → Blank w →
      JsonSpell (.items b) d s ms → JsonSpell (.items b) d (i ++ (w ++ 44 :: s)) (m ++ 44 :: ms)

theorem blank_nil : Blank [] := fun _ h => by cases h

theorem skipWs_blank (s : Bytes) : ∃ w, Blank w ∧ s = w ++ skipWs s := by
  obtain ⟨w, hs, hw⟩ := skipWs_split s
  exact ⟨w, hw, hs⟩

/-! ### Numbers -/

theorem skipSign_all {p : UInt8 → Bool} (h43 : p 43 = true) (h45 : p 45 = true) {s : Bytes}
    (h : (skipSign s).all p = true) : s.all p = true := by
  cases s with
  | nil => rfl
  | cons c s =>
    unfold skipSign at h
    dsimp only at h
    split at h
    · next hc =>
      rw [List.all_cons, h, Bool.and_true]
      rcases hc with rfl | rfl
      · exact h43
      · exact h45
    · exact h

theorem numberByte_digit {c : UInt8} (h : isDigit c = true) : numberByte c = true := by
  simp [numberByte, h]

theorem numberByte_alpha {c : UInt8} (h : isAlpha c = true) : numberByte c = true := by
  simp [numberByte, h]

theorem all_of_dropWhile {p q : UInt8 → Bool} (hpq : ∀ c, p c = true → q c = true) {s : Bytes}
    (h : (s.dropWhile p).all q = true) : s.all q = true := by
  rw [← List.takeWhile_append_dropWhile (p := p) (l := s), List.all_append, h, Bool.and_true,
    List.all_eq_true]
  exact fun c hc => hpq c (List.mem_takeWhile_imp hc)

theorem exponentForm_all {e : UInt8} (he : ∀ c, toLower c = e → numberByte c = true) {s : Bytes}
    (h : exponentForm e s = true) : s.all numberByte = true := by
  cases s with
  | nil => rfl
  | cons c s =>
    simp only [exponentForm, Bool.and_eq_true, beq_iff_eq] at h
    rw [List.all_cons, he c h.1.1, Bool.true_and]
    apply skipSign_all rfl rfl
    rw [List.all_eq_true] at h ⊢
    exact fun x hx => numberByte_digit (h.2 x hx)

theorem mantissaForm_all {digit : UInt8 → Bool} {e : UInt8}
    (hd : ∀ c, digit c = true → numberByte c = true)
    (he : ∀ c, toLower c = e → numberByte c = true) {s : Bytes}
    (h : mantissaForm digit e s = true) : s.all numberByte = true := by
  apply all_of_dropWhile hd
  unfold mantissaForm at h
  split at h
  · next r hr =>
    rw [Bool.and_eq_true] at h
    rw [hr, List.all_cons]
    exact all_of_dropWhile hd (exponentForm_all he h.1)
  · rw [Bool.and_eq_true] at h
    exact exponentForm_all he h.1

theorem numberByte_toLower (c : UInt8) : numberByte (toLower c) = true → numberByte c = true := by
  revert c
  apply forall_byte
  decide +kernel

theorem numberByte_of_toLower {c e : UInt8} (he : numberByte e = true) (h : toLower c = e) :
    numberByte c = true := numberByte_toLower c (h ▸ he)

theorem numberByte_hexDigit (c : UInt8) : isHexDigit c = true → numberByte c = true := by
  revert c
  apply forall_byte
  decide +kernel

/-- A text that lowers to a word starts with bytes of numbers. -/
theorem all_take_of_word {l u : Bytes} (hl : l.all numberByte = true)
    (h : startsWith l (u.map toLower) = true) : (u.take l.length).all numberByte = true := by
  obtain ⟨r, hr⟩ := startsWith_iff.mp h
  rw [List.all_eq_true] at hl ⊢
  intro c hc
  apply numberByte_toLower
  apply hl
  have hm : toLower c ∈ (u.take l.length).map toLower := List.mem_map_of_mem hc
  rwa [List.map_take, hr, List.take_left] at hm

theorem all_of_word {l u : Bytes} (hl : l.all numberByte = true) (h : u.map toLower = l) :
    u.all numberByte = true := by
  have hs := all_take_of_word hl (u := u) (by rw [h]; simpa using startsWith_append l [])
  rwa [List.take_of_length_le (by rw [← h, List.length_map])] at hs

theorem nanForm_all {s : Bytes} (h : nanForm s = true) : s.all numberByte = true := by
  cases s with
  | nil => rfl
  | cons c s =>
    simp only [nanForm, Bool.and_eq_true, beq_iff_eq] at h
    obtain ⟨⟨rfl, hlast⟩, hall⟩ := h
    obtain ⟨u, rfl⟩ := List.getLast?_eq_some_iff.mp hlast
    rw [List.dropLast_concat, List.all_eq_true] at hall
    rw [List.all_cons, List.all_append, List.all_eq_true.mpr]
    · rfl
    · intro x hx
      have := hall x hx
      simp only [Bool.or_eq_true] at this
      rcases this with (h | h) | h
      · exact numberByte_alpha h
      · exact numberByte_digit h
      · simp [numberByte, h]

theorem numberForm_all {s : Bytes} (h : numberForm s = true) : s.all numberByte = true := by
  apply skipSign_all rfl rfl
  simp only [numberForm, Bool.or_eq_true, Bool.and_eq_true, beq_iff_eq] at h
  generalize skipSign s = u at h
  have split : ∀ n, (u.take n).all numberByte = true → (u.drop n).all numberByte = true →
      u.all numberByte = true := by
    intro n h1 h2
    rw [← List.take_append_drop n u, List.all_append, h1, h2]
    rfl
  rcases h with (((h | ⟨hx, h⟩) | h) | h) | ⟨hn, h⟩
  · exact mantissaForm_all (fun _ => numberByte_digit) (fun _ => numberByte_of_toLower rfl) h
  · exact split 2 (all_take_of_word (by decide) hx)
      (mantissaForm_all numberByte_hexDigit (fun _ => numberByte_of_toLower rfl) h)
  · exact all_of_word (by decide) h
  · exact all_of_word (by decide) h
  · exact split 3 (all_take_of_word (by decide) hn) (nanForm_all h)

theorem longestPrefix_sound {form : Bytes → Bool} : ∀ {n : Nat} {s t r : Bytes},
    n ≤ s.length → longestPrefix form n s = some (t, r) → s = t ++ r ∧ t ≠ [] ∧ form t = true
  | 0, _, _, _, _, h => by cases h
  | n + 1, s, t, r, hn, h => by
    rw [longestPrefix] at h
    split at h
    · next hf =>
      cases h
      refine ⟨(List.take_append_drop _ _).symm, ?_, hf⟩
      apply List.ne_nil_of_length_pos
      rw [List.length_take]
      omega
    · exact longestPrefix_sound (by omega) h

/-- No longer prefix has the form: it would hold the byte that ends `t`. -/
theorem longestPrefix_complete {t k : Bytes} (hne : t ≠ []) (hf : numberForm t = true)
    (hk : Delimited k) : ∀ (n : Nat), t.length ≤ n → n ≤ (t ++ k).length →
      longestPrefix numberForm n (t ++ k) = some (t, k)
  | 0, h, _ => absurd (List.length_pos_of_ne_nil hne) (by omega)
  | n + 1, h, hn => by
    rw [longestPrefix]
    by_cases he : t.length = n + 1
    · rw [← he, List.take_left, List.drop_left, if_pos hf]
    · cases k with
      | nil =>
        rw [List.append_nil] at hn
        omega
      | cons c r =>
        rw [if_neg, longestPrefix_complete hne hf hk n (by omega) (by omega)]
        intro hform
        have hall := numberForm_all hform
        have htake : (t ++ c :: r).take (n + 1) = t ++ c :: r.take (n - t.length) := by
          rw [List.take_append, List.take_of_length_le (by omega),
            show n + 1 - t.length = n - t.length + 1 by omega, List.take_succ_cons]
        rw [htake, List.all_append, List.all_cons, hk c r rfl, Bool.false_and, Bool.and_false] at hall
        cases hall

theorem jsonNumber_sound {s r : Bytes} (h : jsonNumber s = some r) :
    ∃ w t, Blank w ∧ s = w ++ (t ++ r) ∧ t ≠ [] ∧ numberForm t = true := by
  obtain ⟨⟨t, r'⟩, ht, he⟩ := Option.map_eq_some_iff.mp h
  cases he
  rw [strtod, skipWs_skipWs] at ht
  obtain ⟨heq, hne, hf⟩ := longestPrefix_sound (Nat.le_refl _) ht
  obtain ⟨w, hw, hs⟩ := skipWs_blank s
  exact ⟨w, t, hw, by rw [hs, heq], hne, hf⟩

/-- What a delimiter ends does not start with a word it did not start with. -/
theorem startsWith_delimited {lit : Bytes} (hl : ∀ c ∈ lit, numberByte c = true) {k : Bytes}
    (hk : Delimited k) (a : Bytes) : startsWith lit (a ++ k) = startsWith lit a := by
  cases k with
  | nil => rw [List.append_nil]
  | cons c r =>
    apply startsWith_append_cons
    intro hc
    have h := hl c hc
    rw [hk c r rfl] at h
    cases h

theorem isSpace_numberByte (c : UInt8) : numberByte c = true →
    isSpace c = false ∧ c ≠ 34 ∧ c ≠ 60 ∧ c ≠ 91 ∧ c ≠ 123 := by
  revert c
  apply forall_byte
  decide +kernel

theorem number_head {t : Bytes} (hne : t ≠ []) (hf : numberForm t = true) :
    ∃ c r, t = c :: r ∧ numberByte c = true := by
  cases t with
  | nil => exact absurd rfl hne
  | cons c r =>
    have h := numberForm_all hf
    rw [List.all_cons, Bool.and_eq_true] at h
    exact ⟨c, r, rfl, h.1⟩

/-- No number starts like one of the three words. -/
theorem number_not_word {t w : Bytes} (hf : numberForm t = true)
    (hw : w ∈ [utf8 "true", utf8 "false", utf8 "null"]) : startsWith w t = false := by
  rw [Bool.eq_false_iff]
  intro h
  obtain ⟨r, rfl⟩ := startsWith_iff.mp h
  simp only [List.mem_cons, List.not_mem_nil, or_false] at hw
  rcases hw with rfl | rfl | rfl
  · exact absurd (show numberForm (utf8 "true" ++ r) = false from rfl) (by simp [hf])
  · exact absurd (show numberForm (utf8 "false" ++ r) = false from rfl) (by simp [hf])
  · exact absurd (show numberForm (utf8 "null" ++ r) = false from rfl) (by simp [hf])

theorem jsonNumber_complete {t k : Bytes} (hne : t ≠ []) (hf : numberForm t = true)
    (hk : Delimited k) : jsonNumber (t ++ k) = some k := by
  obtain ⟨c, r, rfl, hc⟩ := number_head hne hf
  have hskip : skipWs (c :: r ++ k) = c :: r ++ k := skipWs_cons (isSpace_numberByte c hc).1 _
  rw [jsonNumber, strtod, hskip, hskip,
    longestPrefix_complete hne hf hk _ (by rw [List.length_append]; omega) (Nat.le_refl _)]
  rfl

theorem Blank.append {w w' : Bytes} (h : Blank w) (h' : Blank w') : Blank (w ++ w') := by
  intro c hc
  rcases List.mem_append.mp hc with hc | hc
  · exact h c hc
  · exact h' c hc

theorem JsonSpell.blank_item {b : Bool} {d : Nat} {w i m : Bytes} (hw : Blank w)
    (h : JsonSpell (.item b) d i m) : JsonSpell (.item b) d (w ++ i) m := by
  cases h with
  | element hw' hv =>
    rw [← List.append_assoc]
    exact .element (hw.append hw') hv
  | member hw' hk h1 h2 hv =>
    rw [← List.append_assoc]
    exact .member (hw.append hw') hk h1 h2 hv

theorem JsonSpell.blank_items {b : Bool} {d : Nat} {w s m : Bytes} (hw : Blank w)
    (h : JsonSpell (.items b) d s m) : JsonSpell (.items b) d (w ++ s) m := by
  cases h with
  | last _ hi hw' =>
    rw [← List.append_assoc]
    exact .last b (hi.blank_item hw) hw'
  | cons _ hi hw' hs =>
    rw [← List.append_assoc]
    exact .cons b (hi.blank_item hw) hw' hs

/-! ### The skipper reads one spelled value -/

/-- `f` reads blanks and one value of at most `d` levels, and nothing else. -/
def SkipsValue (d : Nat) (f : Bytes → Option Bytes) : Prop :=
  ∀ s r, f s = some r → ∃ w v m, Blank w ∧ s = w ++ (v ++ r) ∧ JsonSpell .value d v m

/-- `f` reads one item of an array or object. -/
def SkipsItem (b : Bool) (d : Nat) (f : Bytes → Option Bytes) : Prop :=
  ∀ s r, f s = some r → ∃ i m, s = i ++ r ∧ JsonSpell (.item b) d i m

theorem jsonSkipItems_sound {b : Bool} {d : Nat} {item : Bytes → Option Bytes}
    (hitem : SkipsItem b d item) : ∀ (fuel : Nat) {s r : Bytes},
    jsonSkipItems item (closing b) fuel s = some r →
      ∃ v m, s = v ++ r ∧ JsonSpell (.items b) d v m
  | 0, _, _, h => by cases h
  | fuel + 1, s, r, h => by
    rw [jsonSkipItems] at h
    split at h
    · next c r1 h1 =>
      obtain ⟨r2, h2, he⟩ := Option.map_eq_some_iff.mp h1
      obtain ⟨i, m, hs, hi⟩ := hitem s r2 h2
      obtain ⟨w, hw, hr2⟩ := skipWs_blank r2
      rw [he] at hr2
      split at h
      · next hc =>
        cases h
        exact ⟨i ++ (w ++ [closing b]), m ++ [closing b], by simp [hs, hr2, hc], .last b hi hw⟩
      · split at h
        · next hc =>
          obtain ⟨v, ms, hv, hspell⟩ := jsonSkipItems_sound hitem fuel h
          exact ⟨i ++ (w ++ 44 :: v), m ++ 44 :: ms, by simp [hs, hr2, hc, hv], .cons b hi hw hspell⟩
        · cases h
    · cases h

theorem jsonSkipSeq_sound {b : Bool} {d : Nat} {item : Bytes → Option Bytes}
    (hitem : SkipsItem b d item) : SkipsValue (d + 1) (jsonSkipSeq item (opening b) (closing b)) := by
  intro s r h
  obtain ⟨w, hw, hs⟩ := skipWs_blank s
  unfold jsonSkipSeq at h
  split at h
  · next c r1 h1 =>
    rw [h1] at hs
    obtain ⟨w2, hw2, hr1⟩ := skipWs_blank r1
    split at h
    · next hc =>
      split at h
      · next c' r2 h2 =>
        rw [h2] at hr1
        split at h
        · next hc' =>
          cases h
          exact ⟨w, _, _, hw, by simp [hs, hr1, hc, hc'], .empty b hw2⟩
        · obtain ⟨v, m, hv, hspell⟩ := jsonSkipItems_sound hitem _ h
          exact ⟨w, opening b :: (w2 ++ v), opening b :: m, hw, by simp [hs, hr1, hc, hv],
            .node b (hspell.blank_items hw2)⟩
      · cases h
    · cases h
  · cases h

theorem jsonSkipMember_sound {d : Nat} {value : Bytes → Option Bytes} (hvalue : SkipsValue d value) :
    SkipsItem true d (jsonSkipMember value) := by
  intro s r h
  unfold jsonSkipMember at h
  split at h
  · next c r1 h1 =>
    obtain ⟨⟨key, r2⟩, h2, he⟩ := Option.map_eq_some_iff.mp h1
    obtain ⟨t, ht, hs⟩ := jsonString_sound h2
    obtain ⟨w, hw, hws⟩ := skipWs_blank s
    obtain ⟨w1, hw1, hr2⟩ := skipWs_blank r2
    dsimp only at he
    rw [he] at hr2
    split at h
    · next hc =>
      obtain ⟨w2, v, m, hw2, hr1, hv⟩ := hvalue r1 r h
      refine ⟨_, _, ?_, .member hw ht hw1 hw2 hv⟩
      rw [hws, hs, hr2, hr1, hc]
      simp
    · cases h
  · cases h

theorem skipsItem_element {d : Nat} {value : Bytes → Option Bytes} (hvalue : SkipsValue d value) :
    SkipsItem false d value := by
  intro s r h
  obtain ⟨w, v, m, hw, hs, hv⟩ := hvalue s r h
  exact ⟨w ++ v, m, by rw [hs, List.append_assoc], .element hw hv⟩

theorem jsonSkipAny_sound {d : Nat} {array object : Bytes → Option Bytes}
    (ha : SkipsValue d array) (ho : SkipsValue d object) :
    SkipsValue d (jsonSkipAny array object) := by
  intro s r h
  obtain ⟨w, hw, hs⟩ := skipWs_blank s
  have blank : ∀ f, SkipsValue d f → f (skipWs s) = some r →
      ∃ w v m, Blank w ∧ s = w ++ (v ++ r) ∧ JsonSpell .value d v m := by
    intro f hf hr
    obtain ⟨w2, v, m, hw2, he, hv⟩ := hf _ _ hr
    exact ⟨w ++ w2, v, m, hw.append hw2, by rw [hs, he, List.append_assoc], hv⟩
  have word : ∀ l, l ∈ [utf8 "true", utf8 "false", utf8 "null"] → startsWith l (skipWs s) = true →
      (skipWs s).drop l.length = r → ∃ w v m, Blank w ∧ s = w ++ (v ++ r) ∧ JsonSpell .value d v m := by
    intro l hl hstart hr
    obtain ⟨k, hk⟩ := startsWith_iff.mp hstart
    rw [hk, List.drop_left] at hr
    exact ⟨w, l, l, hw, by rw [hs, hk, hr], .word hl⟩
  unfold jsonSkipAny at h
  dsimp only at h
  split at h
  · obtain ⟨⟨out, r'⟩, h1, he⟩ := Option.map_eq_some_iff.mp h
    cases he
    obtain ⟨t, ht, heq⟩ := jsonString_sound h1
    rw [skipWs_skipWs] at heq
    exact ⟨w, 34 :: t ++ [34], _, hw, by rw [hs, heq]; simp, .string ht⟩
  · split at h
    · exact blank object ho h
    · split at h
      · exact blank array ha h
      · split at h
        · next hst => exact word (utf8 "true") (by simp) hst (Option.some.inj h)
        · split at h
          · next hst => exact word (utf8 "false") (by simp) hst (Option.some.inj h)
          · split at h
            · next hst => exact word (utf8 "null") (by simp) hst (Option.some.inj h)
            · obtain ⟨w2, t, hw2, he, hne, hf⟩ := jsonNumber_sound h
              exact ⟨w ++ w2, t, t, hw.append hw2, by rw [hs, he, List.append_assoc], .number hne hf⟩

/-- **The skipper takes one spelled value** and the blanks before it. -/
theorem jsonSkipValueDepth_sound : ∀ d : Nat, SkipsValue d (jsonSkipValueDepth d)
  | 0 => jsonSkipAny_sound (fun _ _ h => by cases h) (fun _ _ h => by cases h)
  | d + 1 => by
    have ih := jsonSkipValueDepth_sound d
    exact jsonSkipAny_sound (jsonSkipSeq_sound (b := false) (skipsItem_element ih))
      (jsonSkipSeq_sound (b := true) (jsonSkipMember_sound ih))

/-! ### Every spelled value is read whole -/

/-- The function the skipper runs on an item. -/
def jsonSkipItem (b : Bool) (d : Nat) : Bytes → Option Bytes :=
  if b then jsonSkipMember (jsonSkipValueDepth d) else jsonSkipValueDepth d

/-- What the skipper does on each spelled form. The loop needs no more fuel than
    the minified form is long. -/
def SkipsTo : JsonKind → Nat → Bytes → Bytes → Prop
  | .value, d, v, _ => ∀ k, Delimited k → jsonSkipValueDepth d (v ++ k) = some k
  | .item b, d, i, _ => ∀ k, Delimited k → jsonSkipItem b d (i ++ k) = some k
  | .items b, d, s, m => ∀ k fuel, m.length ≤ fuel →
      jsonSkipItems (jsonSkipItem b d) (closing b) fuel (s ++ k) = some k

theorem jsonSkipValueDepth_skipWs (d : Nat) (s : Bytes) :
    jsonSkipValueDepth d (skipWs s) = jsonSkipValueDepth d s := by
  cases d <;> simp only [jsonSkipValueDepth, jsonSkipAny, skipWs_skipWs]

theorem jsonSkipValueDepth_blank {w : Bytes} (hw : Blank w) (d : Nat) (s : Bytes) :
    jsonSkipValueDepth d (w ++ s) = jsonSkipValueDepth d s := by
  rw [← jsonSkipValueDepth_skipWs, skipWs_append hw, jsonSkipValueDepth_skipWs]

theorem jsonSkipItem_skipWs (b : Bool) (d : Nat) (s : Bytes) :
    jsonSkipItem b d (skipWs s) = jsonSkipItem b d s := by
  cases b with
  | false => exact jsonSkipValueDepth_skipWs d s
  | true => simp only [jsonSkipItem, if_true, jsonSkipMember, jsonString, skipWs_skipWs]

theorem jsonSkipItems_skipWs (b : Bool) (d fuel : Nat) (s : Bytes) :
    jsonSkipItems (jsonSkipItem b d) (closing b) fuel (skipWs s) =
      jsonSkipItems (jsonSkipItem b d) (closing b) fuel s := by
  cases fuel with
  | zero => rfl
  | succ fuel => simp only [jsonSkipItems, jsonSkipItem_skipWs]

theorem jsonSkipItems_step {item : Bytes → Option Bytes} {s r r' : Bytes} {c : UInt8}
    (h : item s = some r) (hr : skipWs r = c :: r') (close : UInt8) (fuel : Nat) :
    jsonSkipItems item close (fuel + 1) s =
      if c = close then some r' else if c = 44 then jsonSkipItems item close fuel r' else none := by
  rw [jsonSkipItems, h, Option.map_some, hr]

theorem jsonSkipMember_step {value : Bytes → Option Bytes} {s out r r' : Bytes}
    (h : jsonString s = some (out, r)) (hr : skipWs r = 58 :: r') :
    jsonSkipMember value s = value r' := by
  rw [jsonSkipMember, h, Option.map_some, hr]
  exact if_pos rfl

theorem closing_cases (b : Bool) : isSpace (closing b) = false ∧ numberByte (closing b) = false ∧
    (44 : UInt8) ≠ closing b := by
  cases b <;> decide

theorem jsonSkipValueDepth_opening (b : Bool) (d : Nat) (s : Bytes) :
    jsonSkipValueDepth (d + 1) (opening b :: s) =
      jsonSkipSeq (jsonSkipItem b d) (opening b) (closing b) (opening b :: s) := by
  cases b <;> rfl

theorem jsonSkipSeq_opening (item : Bytes → Option Bytes) (b : Bool) (s : Bytes) :
    jsonSkipSeq item (opening b) (closing b) (opening b :: s) =
      match skipWs s with
      | c :: r => if c = closing b then some r else jsonSkipItems item (closing b) (r.length + 1) (c :: r)
      | [] => none := by
  cases b <;> rfl

theorem delimited_cons {c : UInt8} (h : numberByte c = false) (k : Bytes) : Delimited (c :: k) := by
  intro c' r he
  cases he
  exact h

theorem delimited_blank {w : Bytes} (hw : Blank w) {c : UInt8} (h : numberByte c = false) (k : Bytes) :
    Delimited (w ++ c :: k) := by
  cases w with
  | nil => exact delimited_cons h k
  | cons x w =>
    apply delimited_cons
    have hx := hw x List.mem_cons_self
    cases hn : numberByte x with
    | false => rfl
    | true =>
      rw [(isSpace_numberByte x hn).1] at hx
      cases hx

/-- A spelled form starts, after blanks, with a byte that closes nothing, and its
    minified form is not longer than what stands from there on. -/
theorem JsonSpell.head {kind : JsonKind} {d : Nat} {v m : Bytes} (h : JsonSpell kind d v m) :
    ∃ w c r, Blank w ∧ v = w ++ c :: r ∧ isSpace c = false ∧ c ≠ 93 ∧ c ≠ 125 ∧
      m.length ≤ (c :: r).length := by
  induction h with
  | @string d t ht => exact ⟨[], 34, t ++ [34], blank_nil, rfl, rfl, by decide, by decide, Nat.le_refl _⟩
  | @word d t ht =>
    simp only [List.mem_cons, List.not_mem_nil, or_false] at ht
    rcases ht with h | h | h
    · exact ⟨[], 116, [114, 117, 101], blank_nil, h, rfl, by decide, by decide, by rw [h]; decide⟩
    · exact ⟨[], 102, [97, 108, 115, 101], blank_nil, h, rfl, by decide, by decide, by rw [h]; decide⟩
    · exact ⟨[], 110, [117, 108, 108], blank_nil, h, rfl, by decide, by decide, by rw [h]; decide⟩
  | @number d t hne hf =>
    obtain ⟨c, r, rfl, hc⟩ := number_head hne hf
    refine ⟨[], c, r, blank_nil, rfl, (isSpace_numberByte c hc).1, ?_, ?_, Nat.le_refl _⟩
    · rintro rfl
      cases hc
    · rintro rfl
      cases hc
  | @empty d w b hw =>
    refine ⟨[], opening b, w ++ [closing b], blank_nil, rfl, ?_, ?_, ?_, ?_⟩
    · cases b <;> rfl
    · cases b <;> decide
    · cases b <;> decide
    · simp
  | @node d s m b hs ih =>
    obtain ⟨w, c, r, hw, rfl, h1, h2, h3, hlen⟩ := ih
    refine ⟨[], opening b, w ++ c :: r, blank_nil, rfl, ?_, ?_, ?_, ?_⟩
    · cases b <;> rfl
    · cases b <;> decide
    · cases b <;> decide
    · simp only [List.length_cons, List.length_append] at hlen ⊢
      omega
  | @element d w v m hw hv ih =>
    obtain ⟨w', c, r, hw', rfl, h⟩ := ih
    exact ⟨w ++ w', c, r, hw.append hw', by simp, h⟩
  | @member d w key w1 w2 v m hw hk hw1 hw2 hv ih =>
    obtain ⟨w', c, r, hw', rfl, -, -, -, hlen⟩ := ih
    refine ⟨w, 34, key ++ 34 :: (w1 ++ 58 :: (w2 ++ (w' ++ c :: r))), hw, rfl, rfl, by decide,
      by decide, ?_⟩
    simp only [List.length_cons, List.length_append] at hlen ⊢
    omega
  | @last d i w m b hi hw ih =>
    obtain ⟨w', c, r, hw', rfl, h1, h2, h3, hlen⟩ := ih
    refine ⟨w', c, r ++ (w ++ [closing b]), hw', by simp, h1, h2, h3, ?_⟩
    simp only [List.length_cons, List.length_append, List.length_nil] at hlen ⊢
    omega
  | @cons d i w m s ms b hi hw hs ih1 ih2 =>
    obtain ⟨w1, c, r, hw1, rfl, h1, h2, h3, hlen⟩ := ih1
    obtain ⟨w2, c2, r2, hw2, rfl, -, -, -, hlen2⟩ := ih2
    refine ⟨w1, c, r ++ (w ++ 44 :: (w2 ++ c2 :: r2)), hw1, by simp, h1, h2, h3, ?_⟩
    simp only [List.length_cons, List.length_append] at hlen hlen2 ⊢
    omega

theorem jsonSkipValueDepth_string {t : Bytes} (ht : JsonBody t) (d : Nat) (k : Bytes) :
    jsonSkipValueDepth d (34 :: t ++ 34 :: k) = some k := by
  obtain ⟨out, hout⟩ := jsonString_complete ht
  cases d <;>
    simp only [jsonSkipValueDepth, jsonSkipAny, List.cons_append, skipWs_cons (c := 34) rfl] <;>
    rw [if_pos (by simp), ← List.cons_append, hout] <;> rfl

theorem jsonSkipValueDepth_number {t k : Bytes} (hne : t ≠ []) (hf : numberForm t = true)
    (hk : Delimited k) (d : Nat) : jsonSkipValueDepth d (t ++ k) = some k := by
  obtain ⟨c, r, he, hc⟩ := number_head hne hf
  obtain ⟨hsp, h34, -, h91, h123⟩ := isSpace_numberByte c hc
  have hskip : skipWs (t ++ k) = t ++ k := by
    rw [he]
    exact skipWs_cons hsp _
  have hone : ∀ x, c ≠ x → startsWith [x] (t ++ k) = false := by
    intro x hx
    rw [he]
    simp [Ne.symm hx]
  have hword : ∀ w ∈ [utf8 "true", utf8 "false", utf8 "null"], startsWith w (t ++ k) = false := by
    intro w hw
    rw [startsWith_delimited _ hk, number_not_word hf hw]
    revert w
    decide +kernel
  cases d <;>
    simp only [jsonSkipValueDepth, jsonSkipAny, hskip, hone _ h34, hone _ h123, hone _ h91,
      hword (utf8 "true") (by simp), hword (utf8 "false") (by simp), hword (utf8 "null") (by simp),
      Bool.false_eq_true, if_false] <;>
    exact jsonNumber_complete hne hf hk

/-- **Every spelled value is read whole** when no byte of a number follows it. -/
theorem JsonSpell.skipsTo {kind : JsonKind} {d : Nat} {v m : Bytes} (h : JsonSpell kind d v m) :
    SkipsTo kind d v m := by
  induction h with
  | @string d t ht =>
    intro k _
    rw [List.append_assoc]
    exact jsonSkipValueDepth_string ht d k
  | @word d t ht =>
    intro k _
    simp only [List.mem_cons, List.not_mem_nil, or_false] at ht
    rcases ht with h | h | h
    · rw [h]
      cases d <;> rfl
    · rw [h]
      cases d <;> rfl
    · rw [h]
      cases d <;> rfl
  | number hne hf => exact fun k hk => jsonSkipValueDepth_number hne hf hk _
  | @empty d w b hw =>
    intro k _
    rw [List.cons_append, List.cons_append, jsonSkipValueDepth_opening, jsonSkipSeq_opening,
      List.append_assoc, skipWs_append hw, List.singleton_append, skipWs_cons (closing_cases b).1]
    exact if_pos rfl
  | @node d s m b hs ih =>
    intro k _
    obtain ⟨w, c, r, hw, he, hsp, h93, h125, hlen⟩ := hs.head
    have hc : c ≠ closing b := by
      cases b
      · exact h93
      · exact h125
    rw [List.cons_append, jsonSkipValueDepth_opening, jsonSkipSeq_opening]
    have hskip : skipWs (s ++ k) = c :: (r ++ k) := by
      rw [he, List.append_assoc, skipWs_append hw]
      exact skipWs_cons hsp _
    rw [hskip]
    dsimp only
    rw [if_neg hc, ← hskip, jsonSkipItems_skipWs]
    apply ih
    simp only [List.length_cons, List.length_append] at hlen ⊢
    omega
  | element hw hv ih =>
    intro k hk
    show jsonSkipValueDepth _ _ = _
    rw [List.append_assoc, jsonSkipValueDepth_blank hw]
    exact ih k hk
  | @member d w key w1 w2 v m hw hkey hw1 hw2 hv ih =>
    intro k hk
    show jsonSkipMember (jsonSkipValueDepth d) _ = _
    obtain ⟨out, hout⟩ := jsonString_complete hkey
    have hstr : jsonString (w ++ (34 :: key ++ 34 :: (w1 ++ 58 :: (w2 ++ v))) ++ k) =
        some (out, w1 ++ 58 :: (w2 ++ (v ++ k))) := by
      rw [← hout (w1 ++ 58 :: (w2 ++ (v ++ k))), jsonString, List.append_assoc, skipWs_append hw,
        ← jsonString]
      simp
    rw [jsonSkipMember_step hstr (by rw [skipWs_append hw1]; exact skipWs_cons rfl _),
      jsonSkipValueDepth_blank hw2]
    exact ih k hk
  | @last d i w m b hi hw ih =>
    intro k fuel hfuel
    obtain ⟨hsp, hnum, -⟩ := closing_cases b
    cases fuel with
    | zero => simp at hfuel
    | succ fuel =>
      have hitem : jsonSkipItem b d (i ++ (w ++ [closing b]) ++ k) = some (w ++ closing b :: k) := by
        rw [← ih (w ++ closing b :: k) (delimited_blank hw hnum k)]
        simp
      rw [jsonSkipItems_step hitem (by rw [skipWs_append hw]; exact skipWs_cons hsp k), if_pos rfl]
  | @cons d i w m s ms b hi hw hs ih1 ih2 =>
    intro k fuel hfuel
    obtain ⟨-, -, hne⟩ := closing_cases b
    cases fuel with
    | zero => simp at hfuel
    | succ fuel =>
      have hitem : jsonSkipItem b d (i ++ (w ++ 44 :: s) ++ k) = some (w ++ 44 :: (s ++ k)) := by
        rw [← ih1 (w ++ 44 :: (s ++ k)) (delimited_blank hw rfl _)]
        simp
      rw [jsonSkipItems_step hitem (by rw [skipWs_append hw]; exact skipWs_cons rfl _), if_neg hne,
        if_pos rfl]
      apply ih2
      simp only [List.length_append, List.length_cons] at hfuel
      omega

/-! ### Raw and minified values -/

/-- A minified form spells the same value. -/
theorem JsonSpell.minified {kind : JsonKind} {d : Nat} {v m : Bytes} (h : JsonSpell kind d v m) :
    JsonSpell kind d m m := by
  induction h with
  | string ht => exact .string ht
  | word ht => exact .word ht
  | number hne hf => exact .number hne hf
  | empty b _ => exact .empty b blank_nil
  | node b _ ih => exact .node b ih
  | element _ _ ih => exact .element blank_nil ih
  | member _ hkey _ _ _ ih => exact .member blank_nil hkey blank_nil blank_nil ih
  | last b _ _ ih => exact .last b ih blank_nil
  | cons b _ _ _ ih1 ih2 => exact .cons b ih1 blank_nil ih2

theorem jsonMinifyLoop_plain {u : Bytes} (hu : ∀ c ∈ u, c ≠ 34 ∧ c ≠ 92) (k : Bytes) :
    jsonMinifyLoop true false (u ++ k) = u ++ jsonMinifyLoop true false k := by
  induction u with
  | nil => rfl
  | cons c u ih =>
    rw [List.forall_mem_cons] at hu
    rw [List.cons_append, jsonMinifyLoop, if_neg Bool.false_ne_true, if_neg hu.1.2,
      show (c != 34) = true from bne_iff_ne.mpr hu.1.1, ih hu.2]
    rfl

theorem isHexDigit_plain (c : UInt8) : isHexDigit c = true → c ≠ 34 ∧ c ≠ 92 ∧ c ≠ 60 := by
  revert c
  apply forall_byte
  decide +kernel

/-- Inside a string the copy loop stops at the quote that ends it. -/
theorem jsonMinifyLoop_body {t : Bytes} (h : JsonBody t) (k : Bytes) :
    jsonMinifyLoop true false (t ++ 34 :: k) = t ++ 34 :: jsonMinifyLoop false false k := by
  induction h with
  | nil => rfl
  | @cons t s ht hs ih =>
    rw [List.append_assoc, List.append_assoc, ← ih]
    cases ht with
    | @plain c h34 h92 => exact jsonMinifyLoop_plain (by simp [h34, h92]) _
    | @escape c hc => simp [jsonMinifyLoop]
    | @unicode a b c d hv =>
      have hx : ∀ x ∈ [117, a, b, c, d], x ≠ 34 ∧ x ≠ 92 := by
        rw [List.forall_mem_cons]
        refine ⟨by decide, fun x hx => ?_⟩
        obtain ⟨h1, h2, -⟩ := isHexDigit_plain x (JsonCharTok.hex hv x hx)
        exact ⟨h1, h2⟩
      -- the backslash hides only the `u`: the digits are copied as they are
      have := jsonMinifyLoop_plain (fun x hx' => hx x (List.mem_cons_of_mem 117 hx')) (s ++ 34 :: k)
      simp only [List.cons_append, List.nil_append] at this
      simp [jsonMinifyLoop] at this ⊢
      exact this

theorem jsonMinifyLoop_blank {w : Bytes} (hw : Blank w) (k : Bytes) :
    jsonMinifyLoop false false (w ++ k) = jsonMinifyLoop false false k := by
  induction w with
  | nil => rfl
  | cons c w ih =>
    have hc : isSpace c = true := hw c List.mem_cons_self
    have h34 : c ≠ 34 := by
      rintro rfl
      cases hc
    rw [List.cons_append, jsonMinifyLoop, if_neg h34, if_pos hc]
    exact ih fun x hx => hw x (List.mem_cons_of_mem _ hx)

theorem jsonMinifyLoop_copy {u : Bytes} (hu : ∀ c ∈ u, isSpace c = false ∧ c ≠ 34) (k : Bytes) :
    jsonMinifyLoop false false (u ++ k) = u ++ jsonMinifyLoop false false k := by
  induction u with
  | nil => rfl
  | cons c u ih =>
    rw [List.forall_mem_cons] at hu
    simp [jsonMinifyLoop, hu.1.1, hu.1.2, ih hu.2]

theorem jsonMinifyLoop_string {t : Bytes} (h : JsonBody t) (k : Bytes) :
    jsonMinifyLoop false false (34 :: t ++ 34 :: k) = 34 :: t ++ 34 :: jsonMinifyLoop false false k := by
  rw [List.cons_append, jsonMinifyLoop, if_pos rfl, jsonMinifyLoop_body h]
  rfl

theorem word_copy : ∀ t ∈ [utf8 "true", utf8 "false", utf8 "null"],
    ∀ c ∈ t, isSpace c = false ∧ c ≠ 34 ∧ c ≠ 60 := by
  decide +kernel

theorem bracket_copy (b : Bool) : (isSpace (opening b) = false ∧ opening b ≠ 34) ∧
    isSpace (closing b) = false ∧ closing b ≠ 34 := by
  cases b <;> decide

/-- **The minifier drops the blanks** of a spelled value and nothing else. -/
theorem JsonSpell.minify {kind : JsonKind} {d : Nat} {v m : Bytes} (h : JsonSpell kind d v m) :
    ∀ k, jsonMinifyLoop false false (v ++ k) = m ++ jsonMinifyLoop false false k := by
  have copy : ∀ {c : UInt8}, isSpace c = false ∧ c ≠ 34 → ∀ k,
      jsonMinifyLoop false false (c :: k) = c :: jsonMinifyLoop false false k := by
    intro c hc k
    rw [jsonMinifyLoop, if_neg hc.2, if_neg (by rw [hc.1]; decide)]
  induction h with
  | @string d t ht =>
    intro k
    rw [List.append_assoc, List.append_assoc]
    exact jsonMinifyLoop_string ht k
  | @word d t ht =>
    exact jsonMinifyLoop_copy fun c hc =>
      let ⟨h1, h2, _⟩ := word_copy t ht c hc
      ⟨h1, h2⟩
  | @number d t hne hf =>
    refine jsonMinifyLoop_copy fun c hc => ?_
    obtain ⟨h1, h2, -⟩ := isSpace_numberByte c (List.all_eq_true.mp (numberForm_all hf) c hc)
    exact ⟨h1, h2⟩
  | @empty d w b hw =>
    intro k
    rw [List.cons_append, List.cons_append, List.append_assoc, copy (bracket_copy b).1,
      jsonMinifyLoop_blank hw, List.singleton_append, copy (bracket_copy b).2]
    rfl
  | @node d s m b hs ih =>
    intro k
    rw [List.cons_append, List.cons_append, copy (bracket_copy b).1, ih]
  | element hw hv ih =>
    intro k
    rw [List.append_assoc, jsonMinifyLoop_blank hw, ih]
  | @member d w key w1 w2 v m hw hkey hw1 hw2 hv ih =>
    intro k
    have hkv := jsonMinifyLoop_string hkey (w1 ++ 58 :: (w2 ++ (v ++ k)))
    rw [jsonMinifyLoop_blank hw1, copy (c := 58) (by decide), jsonMinifyLoop_blank hw2, ih] at hkv
    rw [List.append_assoc, jsonMinifyLoop_blank hw]
    simpa using hkv
  | @last d i w m b hi hw ih =>
    intro k
    rw [List.append_assoc, ih, List.append_assoc, jsonMinifyLoop_blank hw, List.singleton_append,
      copy (bracket_copy b).2]
    simp
  | @cons d i w m s ms b hi hw hs ih1 ih2 =>
    intro k
    rw [List.append_assoc, ih1, List.append_assoc, jsonMinifyLoop_blank hw, List.cons_append,
      copy (c := 44) (by decide), ih2]
    simp

theorem JsonSpell.value_head {d : Nat} {v m : Bytes} (h : JsonSpell .value d v m) (k : Bytes) :
    skipWs (v ++ k) = v ++ k := by
  cases h with
  | string => exact skipWs_cons rfl _
  | word ht =>
    simp only [List.mem_cons, List.not_mem_nil, or_false] at ht
    rcases ht with h | h | h <;> rw [h] <;> exact skipWs_cons rfl _
  | number hne hf =>
    obtain ⟨c, r, rfl, hc⟩ := number_head hne hf
    exact skipWs_cons (isSpace_numberByte c hc).1 _
  | empty b => exact skipWs_cons (bracket_copy b).1.1 _
  | node b => exact skipWs_cons (bracket_copy b).1.1 _

theorem JsonSpell.ne_nil {d : Nat} {v m : Bytes} (h : JsonSpell .value d v m) : v ≠ [] := by
  obtain ⟨w, c, r, -, rfl, -⟩ := h.head
  simp

/-- A value is a string in both forms or in none. -/
theorem JsonSpell.value_quote {d : Nat} {v m : Bytes} (h : JsonSpell .value d v m) (k : Bytes) :
    startsWith [34] (m ++ k) = startsWith [34] v := by
  cases h with
  | string => rfl
  | word ht =>
    simp only [List.mem_cons, List.not_mem_nil, or_false] at ht
    rcases ht with h | h | h <;> rw [h] <;> rfl
  | number hne hf =>
    obtain ⟨c, r, rfl, hc⟩ := number_head hne hf
    rfl
  | empty b => cases b <;> rfl
  | node b => cases b <;> rfl

/-- A value that begins with a quote is a string. -/
theorem JsonSpell.quoted {d : Nat} {v m : Bytes} (h : JsonSpell .value d v m) (hq : startsWith [34] v = true) :
    ∃ t, JsonBody t ∧ v = 34 :: t ++ [34] ∧ m = v := by
  cases h with
  | string ht => exact ⟨_, ht, rfl, rfl⟩
  | word ht =>
    simp only [List.mem_cons, List.not_mem_nil, or_false] at ht
    rcases ht with h | h | h <;> rw [h] at hq <;> cases hq
  | number hne hf =>
    obtain ⟨c, r, rfl, hc⟩ := number_head hne hf
    rw [startsWith_cons_cons, Bool.and_eq_true, beq_iff_eq] at hq
    rw [← hq.1] at hc
    cases hc
  | empty b => cases b <;> cases hq
  | node b => cases b <;> cases hq

/-- A spelled value is read whole as a raw value. -/
theorem JsonSpell.rawValue {v m w k : Bytes} (h : JsonSpell .value jsonMaxNesting v m) (hw : Blank w)
    (hk : Delimited k) : jsonRawValue (w ++ (v ++ k)) = some (v, k) := by
  have hskip : jsonSkipValue (v ++ k) = some k := h.skipsTo k hk
  rw [jsonRawValue, skipWs_append hw, h.value_head, hskip]
  simp

theorem delimited_nil : Delimited [] := fun _ _ h => by cases h

theorem Blank.delimited {w : Bytes} (hw : Blank w) : Delimited w := by
  intro c r hc
  cases hn : numberByte c with
  | false => rfl
  | true =>
    have hs := hw c (by rw [hc]; exact List.mem_cons_self)
    rw [(isSpace_numberByte c hn).1] at hs
    cases hs

theorem JsonSpell.minify_whole {d : Nat} {v m : Bytes} (h : JsonSpell .value d v m) :
    jsonMinifyLoop false false v = m := by
  have hmin := h.minify []
  rw [List.append_nil, show jsonMinifyLoop false false [] = [] from rfl, List.append_nil] at hmin
  exact hmin

theorem JsonSpell.minifyRaw {v m : Bytes} (h : JsonSpell .value jsonMaxNesting v m) :
    jsonMinifyRawValue v = m := by
  have hraw := h.rawValue blank_nil delimited_nil
  rw [List.append_nil, List.nil_append] at hraw
  rw [jsonMinifyRawValue, hraw]
  exact h.minify_whole

/-- A raw value is a spelled one. -/
theorem jsonRawValue_sound {s raw r : Bytes} (h : jsonRawValue s = some (raw, r)) :
    ∃ m, JsonSpell .value jsonMaxNesting raw m ∧ skipWs s = raw ++ r := by
  unfold jsonRawValue at h
  obtain ⟨r', hr, he⟩ := Option.map_eq_some_iff.mp h
  cases he
  obtain ⟨w, v, m, hw, hs, hv⟩ := jsonSkipValueDepth_sound _ _ _ hr
  have hskip := skipWs_skipWs s
  rw [hs, skipWs_append hw, hv.value_head] at hskip
  have hnil : w = [] := by
    have hlen := congrArg List.length hskip
    simp only [List.length_append] at hlen
    exact List.length_eq_zero_iff.mp (by omega)
  rw [hnil, List.nil_append] at hs
  have htake : (skipWs s).take ((skipWs s).length - r.length) = v := by
    rw [hs, List.length_append, Nat.add_sub_cancel, List.take_left]
  rw [htake]
  exact ⟨m, hv, hs⟩

/-! ### Escaping a tag inside the strings -/

section
variable {l : Bytes} (hl : ∀ c ∈ 60 :: l, c ∉ ([34, 44, 58, 91, 92, 93, 123, 125] : List UInt8))

/-- The escaped first byte of the tag, as a JSON escape. -/
def jsonLess : Bytes := [92, 117, 48, 48, 51, 99]

theorem escapeTag_copy {a : Bytes} (ha : (60 : UInt8) ∉ a) (rep s : Bytes) :
    escapeTag (60 :: l) rep (a ++ s) = a ++ escapeTag (60 :: l) rep s := by
  induction a with
  | nil => rfl
  | cons c a ih =>
    rw [List.mem_cons, not_or] at ha
    simp [escapeTag, ih ha.2, ha.1]

theorem JsonBody.escapeTag {t : Bytes} (h : JsonBody t) : JsonBody (escapeTag (60 :: l) jsonLess t) := by
  induction h with
  | nil => exact .nil
  | @cons t s ht hs ih =>
    cases ht with
    | @plain c h34 h92 =>
      rw [List.singleton_append, Bytes.escapeTag]
      split
      · exact .cons (.unicode (by decide)) ih
      · exact .cons (.plain h34 h92) ih
    | @escape c hc =>
      rw [escapeTag_copy]
      · exact .cons (.escape hc) ih
      · have : c ≠ 60 := by
          rintro rfl
          exact absurd hc (by decide)
        simp [Ne.symm this]
    | @unicode a b c d hv =>
      rw [escapeTag_copy]
      · exact .cons (.unicode hv) ih
      · intro hm
        have : (60 : UInt8) ∈ [a, b, c, d] := by simpa using hm
        exact (isHexDigit_plain 60 (JsonCharTok.hex hv 60 this)).2.2 rfl

include hl

theorem escapeTag_split {c : UInt8} (hc : c ∈ ([34, 44, 58, 91, 92, 93, 123, 125] : List UInt8))
    (rep a k : Bytes) :
    escapeTag (60 :: l) rep (a ++ c :: k) = escapeTag (60 :: l) rep a ++ c :: escapeTag (60 :: l) rep k :=
  escapeTag_append_cons (by simp) (fun h => hl c h hc) rep k a

theorem escapeTag_skip {c : UInt8} (hc : c ∈ ([34, 44, 58, 91, 92, 93, 123, 125] : List UInt8))
    (rep k : Bytes) : escapeTag (60 :: l) rep (c :: k) = c :: escapeTag (60 :: l) rep k :=
  escapeTag_split hl hc rep [] k

/-- A minified form with a tag escaped in its strings spells a value of its own. -/
theorem JsonSpell.escapeTag {kind : JsonKind} {d : Nat} {v m : Bytes} (h : JsonSpell kind d v m) :
    JsonSpell kind d (escapeTag (60 :: l) jsonLess m) (escapeTag (60 :: l) jsonLess m) := by
  have same : ∀ {t : Bytes}, (60 : UInt8) ∉ t → Bytes.escapeTag (60 :: l) jsonLess t = t := by
    intro t ht
    have := escapeTag_copy (l := l) ht jsonLess []
    rwa [List.append_nil, show Bytes.escapeTag (60 :: l) jsonLess [] = [] from rfl, List.append_nil] at this
  have hopen : ∀ b, opening b ∈ ([34, 44, 58, 91, 92, 93, 123, 125] : List UInt8) := by decide
  have hclose : ∀ b, closing b ∈ ([34, 44, 58, 91, 92, 93, 123, 125] : List UInt8) := by decide
  induction h with
  | @string d t ht =>
    rw [List.cons_append, escapeTag_skip hl (by decide), escapeTag_split hl (by decide)]
    exact .string ht.escapeTag
  | @word d t ht =>
    rw [same fun h => (word_copy t ht 60 h).2.2 rfl]
    exact .word ht
  | @number d t hne hf =>
    rw [same fun h => (isSpace_numberByte 60 (List.all_eq_true.mp (numberForm_all hf) 60 h)).2.2.1 rfl]
    exact .number hne hf
  | @empty d w b hw =>
    rw [escapeTag_skip hl (hopen b), escapeTag_skip hl (hclose b)]
    exact .empty b blank_nil
  | @node d s m b hs ih =>
    rw [escapeTag_skip hl (hopen b)]
    exact .node b ih
  | element hw hv ih => exact .element blank_nil ih
  | @member d w key w1 w2 v m hw hkey hw1 hw2 hv ih =>
    rw [List.cons_append, escapeTag_skip hl (by decide), escapeTag_split hl (by decide),
      escapeTag_skip hl (by decide)]
    exact .member blank_nil hkey.escapeTag blank_nil blank_nil ih
  | @last d i w m b hi hw ih =>
    rw [escapeTag_split hl (hclose b)]
    exact .last b ih blank_nil
  | @cons d i w m s ms b hi hw hs ih1 ih2 =>
    rw [escapeTag_split hl (by decide)]
    exact .cons b ih1 blank_nil ih2

end

end Ds4.Server
