import Mathlib.Data.Fintype.Basic
import Ds4.Chop

/- The rules of the JoyAI pre-tokenizer over classes of characters: what the
   comment above `bpe_tokenize_text` documents, pass by pass, and what the loop does.

     `digitPass`, `cjkPass`   what is isolated first, and what is between
     `wordPass`               the alternatives, the first that matches
     `documentedLen`          the three passes, seen from the front of what is left
     `classLen`               one round of the loop of the source

   The source looks at one class and the next one, and its letters are letters and
   isolated characters alike; `classLen_eq_iff` says where that takes another piece
   than the documented one: exactly at `Swallows`. -/
namespace Ds4

/-! ## Classes of characters -/

/-- What the split tells apart: `blank` is white space that is neither a space nor a newline. -/
inductive JoyaiClass
  | letter
  | digit
  | punct
  | space
  | blank
  | newline
  | cjk
  deriving DecidableEq

namespace JoyaiClass

instance : Fintype JoyaiClass where
  elems := {letter, digit, punct, space, blank, newline, cjk}
  complete c := by cases c <;> decide

def white (c : JoyaiClass) : Bool := c = space || c = blank || c = newline

def letterLike (c : JoyaiClass) : Bool := c = letter || c = cjk

/-- What the first two passes leave. -/
def plain (c : JoyaiClass) : Bool := c ≠ digit && c ≠ cjk

end JoyaiClass
open JoyaiClass

/-- How many there are at the front. -/
def classSpan (p : JoyaiClass → Bool) (s : List JoyaiClass) : Nat := (s.takeWhile p).length

/-- `[\p{P}\p{S}]+[\r\n]*`. -/
def punctRun (s : List JoyaiClass) : Nat :=
  let n := classSpan (· = punct) s
  n + classSpan (· = newline) (s.drop n)

/-- The white space up to its last newline. -/
def newlineRun (s : List JoyaiClass) : Nat :=
  let ws := s.takeWhile white
  ws.length - (ws.reverse.takeWhile (· ≠ newline)).length

/-! ## The documented split -/

/-- `\p{N}{1,3}`, and what is between. -/
def digitPass (s : List JoyaiClass) : Nat :=
  if s.head? = some digit then min 3 (classSpan (· = digit) s) else classSpan (· ≠ digit) s

/-- `[CJK/Hiragana/Katakana]+`, and what is between. -/
def cjkPass (s : List JoyaiClass) : Nat :=
  if s.head? = some digit then s.length
  else if s.head? = some cjk then classSpan (· = cjk) s
  else classSpan (· ≠ cjk) s

/-- `[P/S][A-Za-z]+` -/
def punctLetters (s : List JoyaiClass) : Option Nat :=
  if s.head? = some punct ∧ (s.drop 1).head? = some letter then some (1 + classSpan (· = letter) (s.drop 1))
  else none

/-- `[^\r\n\p{L}\p{P}\p{S}]?[\p{L}\p{M}]+` -/
def prefixLetters (s : List JoyaiClass) : Option Nat :=
  if s.head? = some letter then some (classSpan (· = letter) s)
  else if s.head? ≠ some newline ∧ s.head? ≠ some punct ∧ (s.drop 1).head? = some letter then
    some (1 + classSpan (· = letter) (s.drop 1))
  else none

/-- ` ?[\p{P}\p{S}]+[\r\n]*` -/
def spacePunct (s : List JoyaiClass) : Option Nat :=
  if s.head? = some space ∧ (s.drop 1).head? = some punct then some (1 + punctRun (s.drop 1))
  else if s.head? = some punct then some (punctRun s)
  else none

/-- `\s*[\r\n]+` -/
def blankLines (s : List JoyaiClass) : Option Nat :=
  if newlineRun s = 0 then none else some (newlineRun s)

/-- `\s+(?!\S)` -/
def blankAhead (s : List JoyaiClass) : Option Nat :=
  let n := classSpan white s
  if n = 0 then none
  else if n = s.length then some n
  else if n = 1 then none
  else some (n - 1)

/-- `\s+` -/
def blankAny (s : List JoyaiClass) : Option Nat :=
  if classSpan white s = 0 then none else some (classSpan white s)

/-- The first of the alternatives that matches. -/
def alternative (s : List JoyaiClass) : Option Nat :=
  (punctLetters s).or <| (prefixLetters s).or <| (spacePunct s).or <| (blankLines s).or <|
    (blankAhead s).or (blankAny s)

/-- The alternatives, on what the passes before left; what none matches stays for itself. -/
def wordPass (s : List JoyaiClass) : Nat :=
  if s.head? = some digit ∨ s.head? = some cjk then s.length else (alternative s).getD 1

/-! ## The split of the source, by classes -/

/-- White space up to its last newline, or all of it but one that what follows may take. -/
def whiteLen (s : List JoyaiClass) : Nat :=
  let p := classSpan white s
  if newlineRun s ≠ 0 then newlineRun s
  else if 1 < p ∧ ((s.drop p).head?.any letterLike ∨ (s.drop p).head? = some punct) then p - 1
  else p

def classLen (s : List JoyaiClass) : Nat :=
  let c := s.head?
  let next := (s.drop 1).head?
  if c = some digit then min 3 (classSpan (· = digit) s)
  else if c = some cjk then classSpan (· = cjk) s
  else if c = some punct ∧ next = some letter then 1 + classSpan (· = letter) (s.drop 1)
  else if c = some letter then classSpan letterLike s
  else if c ≠ some newline ∧ c ≠ some punct ∧ next.any letterLike then 1 + classSpan letterLike (s.drop 1)
  else if c = some space ∧ next = some punct then 1 + punctRun (s.drop 1)
  else if c = some punct then punctRun s
  else whiteLen s

/-- Where the source's rule takes another piece than the documented ones: letters, or white space,
    run into a character that is isolated. -/
def Swallows (s : List JoyaiClass) : Prop :=
  (s.head? = some letter ∧ (s.dropWhile (· = letter)).head? = some cjk) ∨
    ((s.head? = some space ∨ s.head? = some blank) ∧ ((s.drop 1).dropWhile (· = letter)).head? = some cjk) ∨
    ((s.head?.any white) ∧ newlineRun s = 0 ∧ 1 < classSpan white s ∧ (s.dropWhile white).head? = some cjk)

theorem takeWhile_within {α : Type} {p q : α → Bool} (h : ∀ c, q c = true → p c = true) (s : List α) :
    (s.takeWhile p).takeWhile q = s.takeWhile q := by
  rw [List.takeWhile_takeWhile]
  congr 1
  funext c
  cases hq : q c with
  | false => simp
  | true => simp [h c hq]

theorem head?_takeWhile {α : Type} (p : α → Bool) (s : List α) : (s.takeWhile p).head? = s.head?.filter p := by
  cases s with
  | nil => rfl
  | cons c s =>
    rw [List.takeWhile_cons]
    cases h : p c <;> simp [Option.filter, h]

theorem drop_takeWhile {α : Type} {p : α → Bool} : ∀ {n : Nat} {s : List α}, n ≤ (s.takeWhile p).length →
    (s.takeWhile p).drop n = (s.drop n).takeWhile p
  | 0, s, _ => rfl
  | n + 1, [], h => by cases h
  | n + 1, c :: s, h => by
    rw [List.takeWhile_cons] at h ⊢
    split at h
    · next hc =>
      rw [if_pos hc, List.drop_succ_cons, List.drop_succ_cons]
      exact drop_takeWhile (by simpa using h)
    · cases h

theorem take_classSpan (p : JoyaiClass → Bool) (s : List JoyaiClass) : s.take (classSpan p s) = s.takeWhile p :=
  (List.prefix_iff_eq_take.mp (List.takeWhile_prefix p)).symm

theorem drop_classSpan (p : JoyaiClass → Bool) (s : List JoyaiClass) : s.drop (classSpan p s) = s.dropWhile p := by
  have h : s.takeWhile p ++ s.dropWhile p = s.take (classSpan p s) ++ s.drop (classSpan p s) := by
    rw [List.takeWhile_append_dropWhile, List.take_append_drop]
  rw [take_classSpan] at h
  exact (List.append_cancel_left h).symm

theorem classSpan_le (p : JoyaiClass → Bool) (s : List JoyaiClass) : classSpan p s ≤ s.length :=
  (List.takeWhile_prefix p).length_le

theorem classSpan_pos {p : JoyaiClass → Bool} {c : JoyaiClass} (h : p c = true) (s : List JoyaiClass) :
    0 < classSpan p (c :: s) := by
  rw [classSpan, List.takeWhile_cons, if_pos h]
  exact Nat.succ_pos _

section
variable {s : List JoyaiClass}

theorem classSpan_plain {q : JoyaiClass → Bool} (h : ∀ c, q c = true → c.plain = true) :
    classSpan q (s.takeWhile plain) = classSpan q s := by
  rw [classSpan, classSpan, takeWhile_within h]

theorem newlineRun_plain : newlineRun (s.takeWhile plain) = newlineRun s := by
  rw [newlineRun, newlineRun, takeWhile_within (by decide)]

theorem punctRun_plain : punctRun (s.takeWhile plain) = punctRun s := by
  have hn : classSpan (· = punct) s ≤ (s.takeWhile plain).length := by
    rw [← classSpan_plain (q := (· = punct)) (by decide)]
    exact classSpan_le _ _
  simp only [punctRun, classSpan_plain (q := (· = punct)) (by decide), drop_takeWhile hn,
    classSpan_plain (q := (· = newline)) (by decide)]

/-- Letters run on over isolated characters where one follows them. -/
theorem letterLike_span : classSpan letterLike s = classSpan (· = letter) s ↔
    (s.dropWhile (· = letter)).head? ≠ some cjk := by
  induction s with
  | nil => simp [classSpan]
  | cons c s ih =>
    cases c with
    | letter => simpa [classSpan, letterLike] using ih
    | cjk => simp [classSpan, letterLike]
    | _ => simp [classSpan, letterLike]

theorem letter_span_le : classSpan (· = letter) s ≤ classSpan letterLike s := by
  rw [classSpan, classSpan, ← takeWhile_within (p := letterLike) (q := (· = letter)) (by decide)]
  exact (List.takeWhile_prefix _).length_le

end

/-- The length of what the first two passes leave of the front. -/
def isolatedLen (s : List JoyaiClass) : Nat := cjkPass (s.take (digitPass s))

/-- The length of the next documented piece. -/
def documentedLen (s : List JoyaiClass) : Nat := wordPass (s.take (isolatedLen s))

section
variable {s : List JoyaiClass}

theorem isolatedLen_digit : isolatedLen (digit :: s) = min 3 (classSpan (· = digit) (digit :: s)) := by
  have hpos := classSpan_pos (p := (· = digit)) (decide_eq_true rfl) s
  have hle := classSpan_le (· = digit) (digit :: s)
  have hpass : digitPass (digit :: s) = min 3 (classSpan (· = digit) (digit :: s)) := if_pos rfl
  obtain ⟨n, hn⟩ : ∃ n, min 3 (classSpan (· = digit) (digit :: s)) = n + 1 :=
    Nat.exists_eq_add_one_of_ne_zero (by omega)
  have hhead : ((digit :: s).take (n + 1)).head? = some digit := rfl
  have hlen : ((digit :: s).take (n + 1)).length = n + 1 := List.length_take_of_le (by omega)
  rw [isolatedLen, hpass, hn, cjkPass, hhead, if_pos rfl, hlen]

theorem isolatedLen_cjk : isolatedLen (cjk :: s) = classSpan (· = cjk) (cjk :: s) := by
  have hhead : ((cjk :: s).takeWhile (· ≠ digit)).head? = some cjk := by rw [head?_takeWhile]; rfl
  rw [isolatedLen, digitPass, if_neg (by simp), take_classSpan, cjkPass, hhead, if_neg (by simp), if_pos rfl,
    classSpan, takeWhile_within (by decide), classSpan]

theorem isolatedLen_plain {c : JoyaiClass} (hc : c.plain = true) : isolatedLen (c :: s) = classSpan plain (c :: s) := by
  have hdigit : c ≠ digit := by rintro rfl; cases hc
  have hcjk : c ≠ cjk := by rintro rfl; cases hc
  have hhead : ((c :: s).takeWhile (· ≠ digit)).head? = some c := by simp [hdigit]
  rw [isolatedLen, digitPass, if_neg (by simpa using hdigit), take_classSpan, cjkPass, hhead,
    if_neg (by simpa using hdigit), if_neg (by simpa using hcjk), classSpan, List.takeWhile_takeWhile, classSpan]
  congr 2
  funext d
  cases d <;> rfl

/-- The two passes before leave what stands up to the next isolated character. -/
theorem take_isolated {c : JoyaiClass} (hc : c.plain = true) :
    (c :: s).take (isolatedLen (c :: s)) = (c :: s).takeWhile plain := by
  rw [isolatedLen_plain hc, take_classSpan]

/-- An isolated segment is a piece. -/
theorem documentedLen_isolated (hs : s.head? = some digit ∨ s.head? = some cjk) (hpos : 0 < isolatedLen s)
    (hle : isolatedLen s ≤ s.length) : documentedLen s = isolatedLen s := by
  have hhead : (s.take (isolatedLen s)).head? = s.head? := by
    rw [List.head?_take, if_neg hpos.ne']
  rw [documentedLen, wordPass, hhead, if_pos hs, List.length_take_of_le hle]

theorem documentedLen_digit : documentedLen (digit :: s) = min 3 (classSpan (· = digit) (digit :: s)) := by
  have hpos := classSpan_pos (p := (· = digit)) (decide_eq_true rfl) s
  have hle := classSpan_le (· = digit) (digit :: s)
  have hlen := isolatedLen_digit (s := s)
  rw [documentedLen_isolated (.inl rfl) (by omega) (by omega), hlen]

theorem documentedLen_cjk : documentedLen (cjk :: s) = classSpan (· = cjk) (cjk :: s) := by
  have hpos := classSpan_pos (p := (· = cjk)) (decide_eq_true rfl) s
  have hle := classSpan_le (· = cjk) (cjk :: s)
  have hlen := isolatedLen_cjk (s := s)
  rw [documentedLen_isolated (.inr rfl) (by omega) (by omega), hlen]

/-- Off the isolated characters the split of the source takes the documented piece exactly where it
    swallows nothing. -/
theorem classLen_letter : classLen (letter :: s) = documentedLen (letter :: s) ↔ ¬Swallows (letter :: s) := by
  rw [documentedLen, take_isolated rfl]
  have h1 : ((letter :: s).takeWhile plain).head? = some letter := by rw [head?_takeWhile]; rfl
  have hword : wordPass ((letter :: s).takeWhile plain) = classSpan (· = letter) (letter :: s) := by
    simp [wordPass, h1, alternative, punctLetters, prefixLetters, classSpan_plain (q := (· = letter)) (by decide)]
  have hswallows : Swallows (letter :: s) ↔ ((letter :: s).dropWhile (· = letter)).head? = some cjk := by
    simp [Swallows, white]
  rw [hword, hswallows, ← ne_eq, ← letterLike_span]
  simp [classLen]

theorem takeWhile_plain_cons {c : JoyaiClass} (hc : c.plain = true) :
    (c :: s).takeWhile plain = c :: s.takeWhile plain := by rw [List.takeWhile_cons, if_pos hc]

theorem head?_plain {c : JoyaiClass} (hc : c.plain = true) :
    (s.takeWhile plain).head? = some c ↔ s.head? = some c := by
  rw [head?_takeWhile, Option.filter_eq_some_iff]
  exact ⟨fun h => h.1, fun h => ⟨h, hc⟩⟩

theorem classLen_punct : classLen (punct :: s) = documentedLen (punct :: s) ∧ ¬Swallows (punct :: s) := by
  rw [documentedLen, take_isolated rfl]
  have hrun : punctRun (punct :: s.takeWhile plain) = punctRun (punct :: s) := by
    rw [← takeWhile_plain_cons rfl, punctRun_plain]
  have hspan := classSpan_plain (s := s) (q := (· = letter)) (by decide)
  refine ⟨?_, by simp [Swallows, white]⟩
  rw [takeWhile_plain_cons rfl]
  by_cases hnext : s.head? = some letter
  · have hnext' : (s.takeWhile plain).head? = some letter := (head?_plain rfl).mpr hnext
    simp [classLen, wordPass, alternative, punctLetters, hnext, hnext', hspan]
  · have hnext' : ¬(s.takeWhile plain).head? = some letter := fun h => hnext ((head?_plain rfl).mp h)
    simp [classLen, wordPass, alternative, punctLetters, prefixLetters, spacePunct, hnext, hnext', hrun]

theorem newlineRun_eq_zero : newlineRun s = 0 ↔ ∀ c ∈ s.takeWhile white, c ≠ newline := by
  have hle : ((s.takeWhile white).reverse.takeWhile (· ≠ newline)).length ≤ (s.takeWhile white).length := by
    have := (List.takeWhile_prefix (l := (s.takeWhile white).reverse) (· ≠ newline)).length_le
    rwa [List.length_reverse] at this
  have hall : ((s.takeWhile white).reverse.takeWhile (· ≠ newline)).length = (s.takeWhile white).length ↔
      ∀ c ∈ s.takeWhile white, c ≠ newline := by
    rw [← @List.length_reverse _ (s.takeWhile white)]
    constructor
    · intro h c hc
      have heq := (List.takeWhile_prefix (· ≠ newline)).eq_of_length h
      rw [List.takeWhile_eq_self_iff] at heq
      simpa using heq c (List.mem_reverse.mpr hc)
    · intro h
      rw [List.takeWhile_eq_self_iff.mpr fun c hc => by simpa using h c (List.mem_reverse.mp hc)]
  rw [newlineRun, ← hall]
  omega

theorem newlineRun_newline : newlineRun (newline :: s) ≠ 0 := by
  have hmem : newline ∈ (newline :: s).takeWhile white := by
    rw [List.takeWhile_cons, if_pos (show newline.white = true from rfl)]
    exact List.mem_cons_self
  rw [ne_eq, newlineRun_eq_zero]
  exact fun h => h newline hmem rfl

theorem classLen_newline : classLen (newline :: s) = documentedLen (newline :: s) ∧ ¬Swallows (newline :: s) := by
  have hne := newlineRun_newline (s := s)
  have hrun : newlineRun (newline :: s.takeWhile plain) = newlineRun (newline :: s) := by
    rw [← takeWhile_plain_cons rfl, newlineRun_plain]
  refine ⟨?_, by simp [Swallows, hne]⟩
  rw [documentedLen, take_isolated rfl, takeWhile_plain_cons rfl]
  simp [classLen, whiteLen, wordPass, alternative, punctLetters, prefixLetters, spacePunct, blankLines, hrun, hne]

theorem plain_length (x : List JoyaiClass) :
    (x.takeWhile plain).length = classSpan white x + ((x.dropWhile white).takeWhile plain).length := by
  have hle : classSpan white x ≤ (x.takeWhile plain).length := by
    rw [← classSpan_plain (q := white) (by decide)]
    exact classSpan_le _ _
  rw [← drop_classSpan, ← drop_takeWhile hle, List.length_drop]
  omega

theorem swallows_joined {c : JoyaiClass} (hc : c = space ∨ c = blank) (hnext : s.head? = some letter) :
    Swallows (c :: s) ↔ (s.dropWhile (· = letter)).head? = some cjk := by
  obtain ⟨t, rfl⟩ := List.head?_eq_some_iff.mp hnext
  have hone : ¬1 < classSpan white (c :: letter :: t) := by
    rcases hc with rfl | rfl <;> simp [classSpan, white]
  rcases hc with rfl | rfl <;> simp [Swallows, hone]

theorem classLen_blank_letter {c : JoyaiClass} (hc : c = space ∨ c = blank) (hnext : s.head? = some letter) :
    classLen (c :: s) = documentedLen (c :: s) ↔ ¬Swallows (c :: s) := by
  have hplain : c.plain = true := by rcases hc with rfl | rfl <;> rfl
  have hnext' : (s.takeWhile plain).head? = some letter := (head?_plain rfl).mpr hnext
  rw [swallows_joined hc hnext, ← ne_eq, ← letterLike_span, documentedLen, take_isolated hplain,
    takeWhile_plain_cons hplain]
  have hspan := classSpan_plain (s := s) (q := (· = letter)) (by decide)
  rcases hc with rfl | rfl
  · simp [classLen, wordPass, alternative, punctLetters, prefixLetters, hnext, hnext', hspan, letterLike]
  · simp [classLen, wordPass, alternative, punctLetters, prefixLetters, hnext, hnext', hspan, letterLike]

theorem head?_dropWhile_white (x : List JoyaiClass) {e : JoyaiClass} (h : (x.dropWhile white).head? = some e) :
    e.white = false := by
  have := List.head?_dropWhile_not white x
  rw [h] at this
  simpa using this

section
variable {c : JoyaiClass} (hc : c = space ∨ c = blank)
  (hnext : ∀ d, s.head? = some d → d ≠ letter ∧ d ≠ cjk ∧ (c = space → d ≠ punct))
include hc hnext

/-- White space that joins no word. -/
theorem classLen_run : classLen (c :: s) = if newlineRun (c :: s) ≠ 0 then newlineRun (c :: s)
    else if 1 < classSpan white (c :: s) ∧ (((c :: s).dropWhile white).head?.any letterLike ∨
      ((c :: s).dropWhile white).head? = some punct) then classSpan white (c :: s) - 1
    else classSpan white (c :: s) := by
  have hlike : s.head?.any letterLike = false := by
    cases hs : s.head? with
    | none => rfl
    | some d => have := hnext d hs; simpa [letterLike] using ⟨this.1, this.2.1⟩
  rw [← drop_classSpan]
  rcases hc with rfl | rfl
  · have : ¬s.head? = some punct := fun h => (hnext punct h).2.2 rfl rfl
    simp [classLen, whiteLen, hlike, this]
  · simp [classLen, whiteLen, hlike]

theorem swallows_run : Swallows (c :: s) ↔ newlineRun (c :: s) = 0 ∧ 1 < classSpan white (c :: s) ∧
    ((c :: s).dropWhile white).head? = some cjk := by
  have hcjk : s.head? ≠ some cjk := fun h => (hnext cjk h).2.1 rfl
  have hdrop : s.dropWhile (· = letter) = s := by
    cases s with
    | nil => rfl
    | cons d t => rw [List.dropWhile_cons, if_neg (by simpa using (hnext d rfl).1)]
  rcases hc with rfl | rfl <;> simp [Swallows, hdrop, hcjk, white]

theorem classLen_blank_run : classLen (c :: s) = documentedLen (c :: s) ↔ ¬Swallows (c :: s) := by
  have hplain : c.plain = true := by rcases hc with rfl | rfl <;> rfl
  have hwhite : c.white = true := by rcases hc with rfl | rfl <;> rfl
  have hletter' : ¬(s.takeWhile plain).head? = some letter := fun h => (hnext letter ((head?_plain rfl).mp h)).1 rfl
  have hpunct' : ¬(c = space ∧ (s.takeWhile plain).head? = some punct) := fun h =>
    (hnext punct ((head?_plain rfl).mp h.2)).2.2 h.1 rfl
  have hclass := classLen_run hc hnext
  have hswallows := swallows_run hc hnext
  generalize hx : (c :: s).dropWhile white = x at hclass hswallows
  generalize hw : classSpan white (c :: s) = w at hclass hswallows
  have hwpos : 0 < w := hw ▸ classSpan_pos hwhite s
  have hrun : newlineRun (c :: s.takeWhile plain) = newlineRun (c :: s) := by
    rw [← takeWhile_plain_cons hplain, newlineRun_plain]
  have hspan : classSpan white (c :: s.takeWhile plain) = w := by
    rw [← takeWhile_plain_cons hplain, classSpan_plain (by decide), hw]
  have hlen : (c :: s.takeWhile plain).length = w + (x.takeWhile plain).length := by
    rw [← takeWhile_plain_cons hplain, plain_length, hw, hx]
  have hdoc : documentedLen (c :: s) = if newlineRun (c :: s) ≠ 0 then newlineRun (c :: s)
      else if (x.takeWhile plain).length = 0 ∨ w = 1 then w else w - 1 := by
    have hwas : w = w + (x.takeWhile plain).length ↔ (x.takeWhile plain).length = 0 := by omega
    have halt : alternative (c :: s.takeWhile plain) = (blankLines (c :: s.takeWhile plain)).or
        ((blankAhead (c :: s.takeWhile plain)).or (blankAny (c :: s.takeWhile plain))) := by
      rcases hc with rfl | rfl
      · have : ¬(s.takeWhile plain).head? = some punct := fun h => hpunct' ⟨rfl, h⟩
        simp [alternative, punctLetters, prefixLetters, spacePunct, hletter', this]
      · simp [alternative, punctLetters, prefixLetters, spacePunct, hletter']
    have hword : wordPass (c :: s.takeWhile plain) = (alternative (c :: s.takeWhile plain)).getD 1 := by
      rcases hc with rfl | rfl <;> rfl
    rw [documentedLen, take_isolated hplain, takeWhile_plain_cons hplain, hword, halt, blankLines, blankAhead, blankAny,
      hrun, hspan, hlen]
    simp only [hwas, hwpos.ne', if_false]
    by_cases hn : newlineRun (c :: s) = 0
    · by_cases h0 : (x.takeWhile plain).length = 0
      · simp [hn, h0]
      · by_cases h1 : w = 1
        · simp [hn, h0, h1]
        · simp [hn, h0, h1]
    · simp [hn]
  rw [hclass, hdoc, hswallows]
  by_cases hn : newlineRun (c :: s) = 0
  · cases hd : x with
    | nil => simp [hn]
    | cons d t =>
      have hnot : d.white = false := head?_dropWhile_white (c :: s) (by rw [hx, hd]; rfl)
      obtain rfl | hmore : w = 1 ∨ 1 < w := by omega
      · cases d <;> simp [hn, plain]
      cases d with
      | letter => simp [hn, letterLike, plain, hmore, hmore.ne']
      | punct => simp [hn, plain, hmore, hmore.ne']
      | digit => simp [hn, letterLike, plain]
      | cjk => simp [hn, letterLike, plain, hmore]; omega
      | _ => cases hnot
  · simp [hn]

end

theorem classLen_blank {c : JoyaiClass} (hc : c = space ∨ c = blank) :
    classLen (c :: s) = documentedLen (c :: s) ↔ ¬Swallows (c :: s) := by
  have hplain : c.plain = true := by rcases hc with rfl | rfl <;> rfl
  by_cases hletter : s.head? = some letter
  · exact classLen_blank_letter hc hletter
  by_cases hcjk : s.head? = some cjk
  · obtain ⟨t, rfl⟩ : ∃ t, s = cjk :: t := by
      cases s with
      | nil => cases hcjk
      | cons d t => exact ⟨t, by rw [Option.some.inj hcjk]⟩
    have hpos := classSpan_pos (p := letterLike) (c := cjk) rfl t
    have hdoc : documentedLen (c :: cjk :: t) = 1 := by
      rw [documentedLen, take_isolated hplain, takeWhile_plain_cons hplain, List.takeWhile_cons,
        if_neg (show ¬cjk.plain = true from nofun)]
      rcases hc with rfl | rfl <;> decide
    have hclass : classLen (c :: cjk :: t) = 1 + classSpan letterLike (cjk :: t) := by
      rcases hc with rfl | rfl <;> simp [classLen, letterLike]
    have hswallows : Swallows (c :: cjk :: t) := .inr (.inl ⟨by simpa using hc, rfl⟩)
    refine iff_of_false ?_ (not_not_intro hswallows)
    omega
  by_cases hpunct : c = space ∧ s.head? = some punct
  · obtain ⟨rfl, hpunct⟩ := hpunct
    have hpunct' : (s.takeWhile plain).head? = some punct := (head?_plain rfl).mpr hpunct
    obtain ⟨t, rfl⟩ : ∃ t, s = punct :: t := by
      cases s with
      | nil => cases hpunct
      | cons d t => exact ⟨t, by rw [Option.some.inj hpunct]⟩
    have hswallows : ¬Swallows (space :: punct :: t) := by simp [Swallows, classSpan, white]
    refine iff_of_true ?_ hswallows
    rw [documentedLen, take_isolated hplain, takeWhile_plain_cons hplain, takeWhile_plain_cons rfl]
    have hrun : punctRun (punct :: t.takeWhile plain) = punctRun (punct :: t) := by
      rw [← takeWhile_plain_cons rfl, punctRun_plain]
    simp [classLen, wordPass, alternative, punctLetters, prefixLetters, spacePunct, letterLike, hrun]
  · refine classLen_blank_run hc fun d hd => ⟨?_, ?_, ?_⟩
    · rintro rfl
      exact hletter hd
    · rintro rfl
      exact hcjk hd
    · rintro hs rfl
      exact hpunct ⟨hs, hd⟩

/-- The source's piece is the documented one exactly where it swallows nothing. -/
theorem classLen_eq_iff (hs : s ≠ []) : classLen s = documentedLen s ↔ ¬Swallows s := by
  cases s with
  | nil => exact absurd rfl hs
  | cons c s =>
    cases c with
    | letter => exact classLen_letter
    | digit => exact iff_of_true documentedLen_digit.symm (by simp [Swallows, white])
    | punct => exact iff_of_true classLen_punct.1 classLen_punct.2
    | space => exact classLen_blank (.inl rfl)
    | blank => exact classLen_blank (.inr rfl)
    | newline => exact iff_of_true classLen_newline.1 classLen_newline.2
    | cjk => exact iff_of_true documentedLen_cjk.symm (by simp [Swallows, white])

/-! ## The passes in one -/

theorem classSpan_drop {p : JoyaiClass → Bool} {n : Nat} (h : n ≤ classSpan p s) :
    classSpan p (s.drop n) = classSpan p s - n := by
  rw [classSpan, ← drop_takeWhile h, List.length_drop, classSpan]

theorem head?_of_classSpan {p : JoyaiClass → Bool} (h : 0 < classSpan p s) : ∃ c t, s = c :: t ∧ p c = true := by
  cases s with
  | nil => cases h
  | cons c t =>
    refine ⟨c, t, rfl, ?_⟩
    cases hc : p c with
    | true => rfl
    | false => simp [classSpan, hc] at h

theorem punctRun_le : punctRun s ≤ s.length := by
  have h1 := classSpan_le (· = punct) s
  have h2 := classSpan_le (· = newline) (s.drop (classSpan (· = punct) s))
  rw [List.length_drop] at h2
  rw [punctRun]
  omega

theorem newlineRun_le : newlineRun s ≤ classSpan white s := Nat.sub_le _ _

theorem cuts_digitPass : Cuts digitPass := by
  intro s hs
  obtain ⟨c, t, rfl⟩ := List.exists_cons_of_ne_nil hs
  have hle := classSpan_le (· = digit) (c :: t)
  have hle' := classSpan_le (· ≠ digit) (c :: t)
  rw [digitPass]
  split
  · next hc =>
    have hpos := classSpan_pos (p := (· = digit)) (decide_eq_true (Option.some.inj hc)) t
    omega
  · next hc =>
    have hpos := classSpan_pos (p := (· ≠ digit)) (decide_eq_true (by simpa using hc)) t
    omega

theorem cuts_cjkPass : Cuts cjkPass := by
  intro s hs
  obtain ⟨c, t, rfl⟩ := List.exists_cons_of_ne_nil hs
  have hle := classSpan_le (· = cjk) (c :: t)
  have hle' := classSpan_le (· ≠ cjk) (c :: t)
  rw [cjkPass]
  split
  · exact ⟨Nat.succ_pos _, Nat.le_refl _⟩
  split
  · next hc =>
    have hpos := classSpan_pos (p := (· = cjk)) (decide_eq_true (Option.some.inj hc)) t
    omega
  · next hc =>
    have hpos := classSpan_pos (p := (· ≠ cjk)) (decide_eq_true (by simpa using hc)) t
    omega

theorem alternative_bounds {n : Nat} (h : alternative s = some n) : 0 < n ∧ n ≤ s.length := by
  have hdrop : (s.drop 1).length = s.length - 1 := List.length_drop
  have hspan := classSpan_le (· = letter) (s.drop 1)
  have hletters := classSpan_le (· = letter) s
  have hwhite := classSpan_le white s
  have hrun := newlineRun_le (s := s)
  have hpunct := punctRun_le (s := s)
  have hpunct' := punctRun_le (s := s.drop 1)
  have hpos {p : JoyaiClass → Bool} {c : JoyaiClass} (hp : p c = true) {l : List JoyaiClass} (hl : l.head? = some c) :
      0 < classSpan p l ∧ 0 < l.length := by
    obtain ⟨t, rfl⟩ := List.head?_eq_some_iff.mp hl
    exact ⟨classSpan_pos hp t, Nat.succ_pos _⟩
  simp only [alternative, Option.or_eq_some_iff] at h
  rcases h with h | ⟨-, h | ⟨-, h | ⟨-, h | ⟨-, h | ⟨-, h⟩⟩⟩⟩⟩
  · simp only [punctLetters, Option.ite_none_right_eq_some, Option.some.injEq] at h
    have := (hpos (p := (· = punct)) rfl h.1.1).2
    omega
  · rw [prefixLetters] at h
    split at h
    · next hc =>
      have := (hpos (p := (· = letter)) rfl hc).1
      cases h
      omega
    · simp only [Option.ite_none_right_eq_some, Option.some.injEq] at h
      have := (hpos (p := (· = letter)) rfl h.1.2.2).2
      omega
  · rw [spacePunct] at h
    split at h
    · next hc =>
      have := (hpos (p := (· = space)) rfl hc.1).2
      cases h
      omega
    · simp only [Option.ite_none_right_eq_some, Option.some.injEq] at h
      have := (hpos (p := (· = punct)) rfl h.1).1
      have hge : classSpan (· = punct) s ≤ punctRun s := Nat.le_add_right _ _
      omega
  · rw [blankLines] at h
    split at h
    · cases h
    · cases h
      omega
  · simp only [blankAhead] at h
    split at h
    · cases h
    split at h
    · cases h
      omega
    split at h
    · cases h
    · cases h
      omega
  · rw [blankAny] at h
    split at h
    · cases h
    · cases h
      omega

theorem cuts_wordPass : Cuts wordPass := by
  intro s hs
  have hlen := List.length_pos_iff.mpr hs
  rw [wordPass]
  split
  · omega
  cases h : alternative s with
  | none => exact ⟨Nat.one_pos, hlen⟩
  | some n => exact alternative_bounds h

theorem cuts_isolatedLen : Cuts isolatedLen := by
  intro s hs
  have h1 := cuts_digitPass s hs
  have h2 := cuts_cjkPass (s.take (digitPass s)) (take_ne_nil h1.1 hs)
  rw [List.length_take_of_le h1.2] at h2
  exact ⟨h2.1, h2.2.trans h1.2⟩

theorem cuts_documentedLen : Cuts documentedLen := by
  intro s hs
  have h1 := cuts_isolatedLen s hs
  have h2 := cuts_wordPass (s.take (isolatedLen s)) (take_ne_nil h1.1 hs)
  rw [List.length_take_of_le h1.2] at h2
  exact ⟨h2.1, h2.2.trans h1.2⟩

theorem digitPass_drop (s : List JoyaiClass) (hlt : cjkPass (s.take (digitPass s)) < digitPass s) :
    digitPass (s.drop (cjkPass (s.take (digitPass s)))) = digitPass s - cjkPass (s.take (digitPass s)) := by
  by_cases hd : s.head? = some digit
  · obtain ⟨t, rfl⟩ := List.head?_eq_some_iff.mp hd
    have hb := cuts_digitPass (digit :: t) nofun
    have hhead : ((digit :: t).take (digitPass (digit :: t))).head? = some digit := by
      rw [List.head?_take, if_neg hb.1.ne', hd]
    rw [cjkPass, if_pos hhead, List.length_take_of_le hb.2] at hlt
    exact absurd hlt (Nat.lt_irrefl _)
  · have hspan : digitPass s = classSpan (· ≠ digit) s := if_neg hd
    generalize cjkPass (s.take (digitPass s)) = n at hlt ⊢
    rw [hspan] at hlt ⊢
    have hdrop := classSpan_drop (p := (· ≠ digit)) hlt.le
    obtain ⟨c, t, hcons, hc⟩ := head?_of_classSpan (s := s.drop n) (p := (· ≠ digit)) (by omega)
    rw [← hdrop, hcons, digitPass, if_neg (by simpa using hc)]

theorem isolatedLen_drop (s : List JoyaiClass) (hlt : wordPass (s.take (isolatedLen s)) < isolatedLen s) :
    isolatedLen (s.drop (wordPass (s.take (isolatedLen s)))) = isolatedLen s - wordPass (s.take (isolatedLen s)) := by
  cases s with
  | nil => cases hlt
  | cons c t =>
    have hb := cuts_isolatedLen (c :: t) nofun
    by_cases hc : c.plain = true
    · generalize wordPass ((c :: t).take (isolatedLen (c :: t))) = n at hlt ⊢
      rw [isolatedLen_plain hc] at hlt ⊢
      have hdrop := classSpan_drop hlt.le
      obtain ⟨d, u, hcons, hd⟩ := head?_of_classSpan (s := (c :: t).drop n) (p := plain) (by omega)
      rw [← hdrop, hcons, isolatedLen_plain hd]
    · have hhead : (c :: t).head? = some digit ∨ (c :: t).head? = some cjk := by
        cases c <;> simp [plain] at hc ⊢
      exact absurd (documentedLen_isolated hhead hb.1 hb.2) hlt.ne

theorem cuts_classLen : Cuts classLen := by
  intro s hs
  obtain ⟨c, t, rfl⟩ := List.exists_cons_of_ne_nil hs
  have hspan := classSpan_le letterLike (c :: t)
  have hspan' := classSpan_le letterLike t
  have hletters := classSpan_le (· = letter) t
  have hdigits := classSpan_le (· = digit) (c :: t)
  have hcjks := classSpan_le (· = cjk) (c :: t)
  have hrun := punctRun_le (s := c :: t)
  have hrun' := punctRun_le (s := t)
  have hwhite := classSpan_le white (c :: t)
  have hnewline := newlineRun_le (s := c :: t)
  have hlen : (c :: t).length = t.length + 1 := rfl
  have hpos {p : JoyaiClass → Bool} (hp : p c = true) : 0 < classSpan p (c :: t) := classSpan_pos hp t
  simp only [classLen, List.head?_cons, List.drop_succ_cons, List.drop_zero, Option.some.injEq]
  split
  · next h => have := hpos (p := (· = digit)) (decide_eq_true h); omega
  split
  · next h => have := hpos (p := (· = cjk)) (decide_eq_true h); omega
  split
  · omega
  split
  · next h => have := hpos (p := letterLike) (by rw [h]; rfl); omega
  split
  · omega
  split
  · omega
  split
  · next h =>
    have := hpos (p := (· = punct)) (decide_eq_true h)
    have hge : classSpan (· = punct) (c :: t) ≤ punctRun (c :: t) := Nat.le_add_right _ _
    omega
  · next h1 h2 h3 h4 h5 h6 h7 =>
    have hc : c.white = true := by cases c <;> first | rfl | contradiction
    have := hpos hc
    rw [whiteLen]
    split
    · omega
    split <;> omega

end

end Ds4
