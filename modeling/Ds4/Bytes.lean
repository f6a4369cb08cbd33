import Mathlib.Data.List.TakeWhile
import Mathlib.Data.List.Infix

/- Byte strings as C code sees them: a `char *` is the bytes before its first
   NUL (`cstr`), `strncmp(p, lit, strlen(lit))` is a prefix test, and `strstr`
   is a first occurrence, given here as the bytes before it and the rest from
   it on. A cursor into a text is the suffix it points at; the end of the list
   stands for the NUL there.

   `escapeTag` is the one escaping scheme a text with delimiters needs: it
   breaks every occurrence of a closing tag and nothing else. `strstr_append`
   and `escapeTag_no_tag` together say that a text so escaped and closed with
   the tag is found again whole. -/

abbrev Bytes := List UInt8

namespace Bytes

/-- A fact about every byte, from its 256 cases. -/
theorem forall_byte {P : UInt8 → Prop} (h : ∀ n < 256, P (UInt8.ofNat n)) (b : UInt8) : P b := by
  have := h b.toNat b.toNat_lt
  rwa [UInt8.ofNat_toNat] at this

/-- The UTF-8 bytes of a string literal of the source. -/
def utf8 (s : String) : Bytes := s.toByteArray.data.toList

/-- `(int)i` of an unsigned value. -/
def cInt (i : Nat) : Int := Int.bmod i 4294967296

/-- `tolower` in the C locale. -/
def toLower (c : UInt8) : UInt8 := if 65 ≤ c ∧ c ≤ 90 then c + 32 else c

/-- `(char)` of a code point's part. -/
def toChar (x : UInt32) : UInt8 := x.toUInt8

/-- The `utf8_put` of both programs: one code point as UTF-8. -/
def utf8Put (cp : UInt32) : Bytes :=
  if cp ≤ 0x7f then [toChar cp]
  else if cp ≤ 0x7ff then [toChar ((cp >>> 6) ||| 0xc0), toChar ((cp &&& 0x3f) ||| 0x80)]
  else if cp ≤ 0xffff then
    [toChar ((cp >>> 12) ||| 0xe0), toChar (((cp >>> 6) &&& 0x3f) ||| 0x80),
      toChar ((cp &&& 0x3f) ||| 0x80)]
  else
    [toChar ((cp >>> 18) ||| 0xf0), toChar (((cp >>> 12) &&& 0x3f) ||| 0x80),
      toChar (((cp >>> 6) &&& 0x3f) ||| 0x80), toChar ((cp &&& 0x3f) ||| 0x80)]

/-- What a reader of the C string sees of a buffer. -/
def cstr (s : Bytes) : Bytes := s.takeWhile (· ≠ 0)

theorem cstr_of_no_nul {s : Bytes} (h : (0 : UInt8) ∉ s) : cstr s = s := by
  apply List.takeWhile_eq_self_iff.mpr
  intro x hx
  simpa using fun e : x = 0 => h (e ▸ hx)

theorem cstr_no_nul (s : Bytes) : (0 : UInt8) ∉ cstr s := by
  intro h
  simpa using List.mem_takeWhile_imp h

theorem cstr_append {a : Bytes} (ha : (0 : UInt8) ∉ a) (b : Bytes) : cstr (a ++ b) = a ++ cstr b := by
  rw [cstr, List.takeWhile_append_of_pos, cstr]
  intro x hx
  simpa using fun e : x = 0 => ha (e ▸ hx)

theorem cstr_cstr (s : Bytes) : cstr (cstr s) = cstr s := cstr_of_no_nul (cstr_no_nul s)

/-- `strncmp(s, lit, strlen(lit)) == 0`. -/
def startsWith (lit s : Bytes) : Bool := lit.isPrefixOf s

theorem startsWith_iff {lit s : Bytes} : startsWith lit s = true ↔ ∃ r, s = lit ++ r := by
  rw [startsWith, List.isPrefixOf_iff_prefix]
  exact ⟨fun ⟨r, hr⟩ => ⟨r, hr.symm⟩, fun ⟨r, hr⟩ => ⟨r, hr.symm⟩⟩

@[simp] theorem startsWith_append (lit r : Bytes) : startsWith lit (lit ++ r) = true :=
  startsWith_iff.mpr ⟨r, rfl⟩

@[simp] theorem startsWith_cons_cons (x c : UInt8) (lit s : Bytes) :
    startsWith (x :: lit) (c :: s) = (x == c && startsWith lit s) := rfl

@[simp] theorem startsWith_nil (s : Bytes) : startsWith [] s = true := by
  simp [startsWith]

@[simp] theorem startsWith_cons_nil (x : UInt8) (lit : Bytes) :
    startsWith (x :: lit) [] = false := rfl

/-- A byte that is not in `lit` ends what a match can see. -/
theorem startsWith_append_cons {lit : Bytes} {c : UInt8} (hc : c ∉ lit) (k : Bytes) :
    ∀ a : Bytes, startsWith lit (a ++ c :: k) = startsWith lit a := by
  induction lit with
  | nil => intro a; simp
  | cons x l ih =>
    rw [List.mem_cons, not_or] at hc
    intro a
    cases a with
    | nil => simp [Ne.symm hc.1]
    | cons y a => simp [ih hc.2 a]

/-! ## Blanks -/

/-- `isspace` in the C locale. -/
def isSpace (c : UInt8) : Bool := c == 32 || (9 ≤ c && c ≤ 13)

/-- `while (isspace(*p)) p++`. -/
def skipWs (s : Bytes) : Bytes := s.dropWhile isSpace

theorem skipWs_split (s : Bytes) :
    ∃ w, s = w ++ skipWs s ∧ ∀ c ∈ w, isSpace c = true :=
  ⟨s.takeWhile isSpace, (List.takeWhile_append_dropWhile).symm, fun _ h => List.mem_takeWhile_imp h⟩

theorem skipWs_append {w : Bytes} (h : ∀ c ∈ w, isSpace c = true) (s : Bytes) :
    skipWs (w ++ s) = skipWs s := List.dropWhile_append_of_pos h

@[simp] theorem skipWs_nil : skipWs [] = [] := rfl

theorem skipWs_cons {c : UInt8} (h : isSpace c = false) (s : Bytes) : skipWs (c :: s) = c :: s :=
  List.dropWhile_cons_of_neg (by simp [h])

theorem skipWs_head (s : Bytes) {c : UInt8} {r : Bytes} (h : skipWs s = c :: r) :
    isSpace c = false := by
  have := List.head?_dropWhile_not isSpace s
  rw [show s.dropWhile isSpace = c :: r from h] at this
  simpa using this

@[simp] theorem skipWs_skipWs (s : Bytes) : skipWs (skipWs s) = skipWs s := by
  cases h : skipWs s with
  | nil => rfl
  | cons c r => exact skipWs_cons (skipWs_head s h) r

/-! ## Search -/

/-- `strstr`: the bytes before the first occurrence and the text from it on. -/
def strstr (lit : Bytes) : Bytes → Option (Bytes × Bytes)
  | [] => if startsWith lit [] then some ([], []) else none
  | c :: s =>
    if startsWith lit (c :: s) then some ([], c :: s)
    else (strstr lit s).map fun r => (c :: r.1, r.2)

/-- `strchr(s, d)`. -/
def strchr (d : UInt8) (s : Bytes) : Option (Bytes × Bytes) := strstr [d] s

theorem strstr_sound {lit : Bytes} : ∀ {s a r : Bytes}, strstr lit s = some (a, r) →
    s = a ++ r ∧ startsWith lit r = true := by
  intro s
  induction s with
  | nil =>
    intro a r h
    simp only [strstr] at h
    split at h
    · next hs =>
      cases h
      exact ⟨rfl, hs⟩
    · cases h
  | cons c s ih =>
    intro a r h
    simp only [strstr] at h
    split at h
    · next hs =>
      cases h
      exact ⟨rfl, hs⟩
    · obtain ⟨⟨a', r'⟩, hr, he⟩ := Option.map_eq_some_iff.mp h
      cases he
      obtain ⟨rfl, hs⟩ := ih hr
      exact ⟨rfl, hs⟩

theorem strstr_of_infix {lit : Bytes} : ∀ {s : Bytes}, lit <:+: s → strstr lit s ≠ none
  | [], h => by
    obtain rfl := List.infix_nil.mp h
    simp [strstr]
  | c :: s, h => by
    rw [strstr]
    split
    · exact fun hn => by cases hn
    · next hno =>
      rcases List.infix_cons_iff.mp h with hp | hi
      · exact absurd (List.isPrefixOf_iff_prefix.mpr hp) hno
      · intro hn
        exact strstr_of_infix hi (Option.map_eq_none_iff.mp hn)

/-- An occurrence found by `strstr` is the first. -/
theorem strstr_index {lit : Bytes} : ∀ {s a r : Bytes}, strstr lit s = some (a, r) →
    startsWith lit (s.drop a.length) = true ∧ ∀ i < a.length, startsWith lit (s.drop i) = false := by
  intro s
  induction s with
  | nil =>
    intro a r h
    simp only [strstr] at h
    split at h
    next hs =>
      cases h
      exact ⟨hs, fun i hi => absurd hi (Nat.not_lt_zero i)⟩
    next => cases h
  | cons c s ih =>
    intro a r h
    simp only [strstr] at h
    split at h
    next hs =>
      cases h
      exact ⟨hs, fun i hi => absurd hi (Nat.not_lt_zero i)⟩
    next hs =>
      obtain ⟨⟨a', r'⟩, hr, he⟩ := Option.map_eq_some_iff.mp h
      cases he
      obtain ⟨hat, hbefore⟩ := ih hr
      refine ⟨hat, fun i hi => ?_⟩
      cases i with
      | zero => simpa using hs
      | succ i => exact hbefore i (by simpa using hi)

theorem strstr_nowhere {lit : Bytes} : ∀ {s : Bytes}, strstr lit s = none → ∀ i, startsWith lit (s.drop i) = false := by
  intro s h i
  rw [Bool.eq_false_iff]
  intro hs
  obtain ⟨r, hr⟩ := startsWith_iff.mp hs
  refine strstr_of_infix ?_ h
  exact ⟨s.take i, r, by rw [List.append_assoc, ← hr, List.take_append_drop]⟩

theorem strstr_of_startsWith {lit s : Bytes} (h : startsWith lit s = true) :
    strstr lit s = some ([], s) := by
  cases s with
  | nil => rw [strstr, if_pos h]
  | cons c s => rw [strstr, if_pos h]

/-- A first byte that occurs nowhere else in the literal: two occurrences cannot
    overlap, so the text before the literal may be anything that does not hold it. -/
theorem strstr_append {d : UInt8} {l : Bytes} (hd : d ∉ l) (k : Bytes) :
    ∀ a : Bytes, ¬ (d :: l) <:+: a → strstr (d :: l) (a ++ (d :: l ++ k)) = some (a, d :: l ++ k) := by
  intro a
  induction a with
  | nil => intro _; simp [strstr]
  | cons c a ih =>
    intro hno
    rw [List.infix_cons_iff, not_or] at hno
    have hstart : startsWith (d :: l) (c :: a ++ (d :: l ++ k)) = false := by
      rw [Bool.eq_false_iff]
      intro hs
      have h := startsWith_append_cons hd (l ++ k) a
      simp only [List.cons_append, startsWith_cons_cons, Bool.and_eq_true, beq_iff_eq] at hs
      rw [h] at hs
      apply hno.1
      rw [← List.isPrefixOf_iff_prefix]
      show startsWith (d :: l) (c :: a) = true
      simp [hs.1, hs.2]
    rw [List.cons_append, strstr, ← List.cons_append, hstart, ih hno.2]
    rfl

/-- The first occurrence of a byte. -/
theorem strchr_append {d : UInt8} {a : Bytes} (h : d ∉ a) (k : Bytes) :
    strchr d (a ++ d :: k) = some (a, d :: k) := by
  have := strstr_append (List.not_mem_nil (a := d)) k a (fun hi => h (hi.subset (by simp)))
  simpa [strchr] using this

/-- A quoted literal stands before the one quote at hand or after it. -/
theorem infix_quote {q : UInt8} {a b lit : Bytes} (ha : q ∉ a) (hlit : q ∉ lit)
    (h : (lit ++ [q]) <:+: a ++ q :: b) : lit <:+ a ∨ (lit ++ [q]) <:+: b := by
  obtain ⟨x, y, hxy⟩ := h
  have hxy : x ++ lit ++ q :: y = a ++ q :: b := by simpa using hxy
  rcases List.append_eq_append_iff.mp hxy with ⟨c, hc, hq⟩ | ⟨c, hc, hq⟩
  · cases c with
    | nil =>
      rw [List.append_nil] at hc
      exact .inl ⟨x, hc.symm⟩
    | cons z c =>
      obtain ⟨rfl, -⟩ := List.cons.inj hq
      exact absurd (hc ▸ by simp) ha
  · cases c with
    | nil =>
      rw [List.append_nil] at hc
      exact .inl ⟨x, hc⟩
    | cons z c =>
      obtain ⟨rfl, hb⟩ := List.cons.inj hq
      have hc : x ++ lit = (a ++ [q]) ++ c := by simpa using hc
      rcases List.append_eq_append_iff.mp hc with ⟨u, hu, hl⟩ | ⟨u, hu, hl⟩
      · cases List.eq_nil_or_concat u with
        | inl hnil =>
          rw [hnil] at hl
          exact .inr ⟨[], y, by rw [hb, ← show lit = c from hl]; simp⟩
        | inr hsnoc =>
          obtain ⟨u', w, rfl⟩ := hsnoc
          rw [List.concat_eq_append, ← List.append_assoc] at hu
          obtain ⟨-, hw⟩ := List.append_inj' hu rfl
          obtain rfl := List.singleton_inj.mp hw
          exact absurd (hl ▸ by simp) hlit
      · exact .inr ⟨u, y, by rw [hb, hl]; simp⟩

/-! ## Escaping a closing tag -/

/-- Every occurrence of `tag` with its first byte spelled `rep`. -/
def escapeTag (tag rep : Bytes) : Bytes → Bytes
  | [] => []
  | c :: s => (if startsWith tag (c :: s) then rep else [c]) ++ escapeTag tag rep s

theorem escapeTag_append_cons {tag : Bytes} {c : UInt8} (hne : tag ≠ []) (hc : c ∉ tag) (rep k : Bytes) :
    ∀ a : Bytes, escapeTag tag rep (a ++ c :: k) = escapeTag tag rep a ++ c :: escapeTag tag rep k := by
  intro a
  induction a with
  | nil =>
    have h : startsWith tag (c :: k) = startsWith tag [] := startsWith_append_cons hc k []
    have h0 : startsWith tag [] = false := by
      cases tag with
      | nil => exact absurd rfl hne
      | cons => rfl
    simp [escapeTag, h, h0]
  | cons x a ih =>
    have h : startsWith tag (x :: a ++ c :: k) = startsWith tag (x :: a) :=
      startsWith_append_cons hc k (x :: a)
    rw [List.cons_append] at h
    simp only [List.cons_append, escapeTag, h, ih, List.append_assoc]

/-- A match in the escaped text that holds no byte of the replacement's head
    was there before. -/
theorem startsWith_escapeTag {tag rep : Bytes} {e : UInt8} :
    ∀ {l s : Bytes}, e ∉ l → startsWith l (escapeTag tag (e :: rep) s) = true →
      startsWith l s = true
  | [], _, _, _ => startsWith_nil _
  | x :: l, [], _, h => by cases h
  | x :: l, c :: s, he, h => by
    rw [List.mem_cons, not_or] at he
    simp only [escapeTag] at h
    split at h
    · -- the tag's first byte was replaced: `l` would start with `e`
      rw [List.cons_append, startsWith_cons_cons, Bool.and_eq_true, beq_iff_eq] at h
      exact absurd h.1.symm he.1
    · rw [List.singleton_append, startsWith_cons_cons, Bool.and_eq_true] at h
      rw [startsWith_cons_cons, Bool.and_eq_true]
      exact ⟨h.1, startsWith_escapeTag he.2 h.2⟩

/-- What is escaped holds no tag. -/
theorem escapeTag_no_tag {d e : UInt8} {l rep : Bytes} (he : e ∉ d :: l)
    (hrep : d ∉ rep) : ∀ s : Bytes, ¬ (d :: l) <:+: escapeTag (d :: l) (e :: rep) s := by
  intro s
  have hde : d ≠ e := fun h => he (h ▸ List.mem_cons_self)
  induction s with
  | nil => simp [escapeTag]
  | cons c s ih =>
    simp only [escapeTag]
    split
    · -- no `d` in the replacement, so an occurrence starts later
      intro hi
      have hr : ∀ r : Bytes, d ∉ r → (d :: l) <:+: r ++ escapeTag (d :: l) (e :: rep) s →
          (d :: l) <:+: escapeTag (d :: l) (e :: rep) s := by
        intro r
        induction r with
        | nil => intro _ h; exact h
        | cons y r ihr =>
          intro hy h
          rw [List.mem_cons, not_or] at hy
          rw [List.cons_append, List.infix_cons_iff] at h
          rcases h with h | h
          · exact absurd (List.cons_prefix_cons.mp h).1 hy.1
          · exact ihr hy.2 h
      exact ih (hr (e :: rep) (by simp [hde, hrep]) hi)
    · next hs =>
      intro hi
      rw [List.singleton_append, List.infix_cons_iff] at hi
      rcases hi with h | h
      · obtain ⟨rfl, ht⟩ := List.cons_prefix_cons.mp h
        apply hs
        rw [startsWith_cons_cons, beq_self_eq_true, Bool.true_and]
        exact startsWith_escapeTag (fun h => he (List.mem_cons_of_mem _ h))
          (List.isPrefixOf_iff_prefix.mpr ht)
      · exact ih h

end Bytes
