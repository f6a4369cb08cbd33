import Ds4.Utf8
import Ds4.Tokenizer.JoyaiRules
import Ds4.Tokenizer.Lossless

/- The pieces of `bpe_tokenize_text` against the documented split, over texts of
   ASCII letters, digits, punctuation, white space and the characters of the second
   rule.

   What is proved, bottom up:
     1. `steps`: what one piece of the source does to the condition `Clean`, which
        reads a text from left to right and asks that isolated characters stand
        apart from what is before them;
     2. `agree_iff_clean`: the run over all pieces;
     3. `pieceLen_joyaiText`: one round over the bytes of a text is one over its
        classes, and so `pieces_joyaiText`;
     4. `joyai_split_iff`: the pieces are the documented ones exactly on clean texts. -/
namespace Ds4
open Bytes JoyaiClass

/-! ## Texts the source splits as documented -/

/-- What stands before a place: `apart` where letters or isolated characters start a piece. -/
inductive SplitState
  | start
  | afterSpace
  | afterBlank
  | onePunct
  | manyPunct
  | punctWord
  | word
  deriving DecidableEq

namespace SplitState

def next (q : SplitState) (c : JoyaiClass) : SplitState :=
  match c with
  | .letter => if q = onePunct ∨ q = punctWord then punctWord else word
  | .punct => if q = afterSpace ∨ q = onePunct ∨ q = manyPunct then manyPunct else onePunct
  | .space => afterSpace
  | .blank => afterBlank
  | .digit | .newline | .cjk => start

def apart (q : SplitState) : Bool := q = start || q = onePunct || q = manyPunct || q = punctWord

/-- Isolated characters stand apart from what is before them. -/
def Clean (q : SplitState) : List JoyaiClass → Prop
  | [] => True
  | c :: s => (c = cjk → q.apart) ∧ Clean (q.next c) s

def after (q : SplitState) (s : List JoyaiClass) : SplitState := s.foldl next q

/-- Where a piece starts after a state. -/
def Starts (q : SplitState) (s : List JoyaiClass) : Prop :=
  match s.head? with
  | some letter => q ≠ word ∧ q ≠ punctWord ∧ q ≠ onePunct
  | some punct => q ≠ afterSpace ∧ q ≠ onePunct ∧ q ≠ manyPunct
  | some cjk => q.apart
  | _ => True

theorem after_append (q : SplitState) (l r : List JoyaiClass) : after q (l ++ r) = after (after q l) r :=
  List.foldl_append

theorem clean_append {l r : List JoyaiClass} : ∀ {q : SplitState},
    Clean q (l ++ r) ↔ Clean q l ∧ Clean (after q l) r := by
  induction l with
  | nil => exact fun {q} => (and_iff_right trivial).symm
  | cons c l ih => exact fun {q} => (and_congr_right fun _ => ih).trans and_assoc.symm

/-- Only an isolated character asks for anything. -/
theorem clean_of_none {l : List JoyaiClass} (h : ∀ c ∈ l, c ≠ cjk) : ∀ {q : SplitState}, Clean q l := by
  induction l with
  | nil => exact trivial
  | cons c l ih =>
    exact ⟨fun hc => absurd hc (h c List.mem_cons_self), ih fun d hd => h d (List.mem_cons_of_mem _ hd)⟩

theorem clean_cjks {l : List JoyaiClass} (h : ∀ c ∈ l, c = cjk) : Clean start l := by
  induction l with
  | nil => exact trivial
  | cons c l ih =>
    obtain rfl := h c List.mem_cons_self
    exact ⟨fun _ => rfl, ih fun d hd => h d (List.mem_cons_of_mem _ hd)⟩

theorem after_letters {l : List JoyaiClass} (h : ∀ c ∈ l, c = letter) (q : SplitState) (hl : l ≠ []) :
    after q l = if q = onePunct ∨ q = punctWord then punctWord else word := by
  induction l generalizing q with
  | nil => exact absurd rfl hl
  | cons c l ih =>
    obtain rfl := h c List.mem_cons_self
    cases hl' : l with
    | nil => rfl
    | cons d l' =>
      subst hl'
      rw [after, List.foldl_cons, ← after, ih (fun d hd => h d (List.mem_cons_of_mem _ hd)) _ (List.cons_ne_nil _ _)]
      cases q <;> rfl

theorem after_puncts {l : List JoyaiClass} (h : ∀ c ∈ l, c = punct) {q : SplitState}
    (hq : q = onePunct ∨ q = manyPunct) (hl : l ≠ []) : after q l = manyPunct := by
  induction l generalizing q with
  | nil => exact absurd rfl hl
  | cons c l ih =>
    obtain rfl := h c List.mem_cons_self
    have hnext : q.next punct = manyPunct := by rcases hq with rfl | rfl <;> rfl
    rw [after, List.foldl_cons, ← after, hnext]
    by_cases hl' : l = []
    · rw [hl']
      rfl
    · exact ih (fun d hd => h d (List.mem_cons_of_mem _ hd)) (.inr rfl) hl'

theorem after_last (q : SplitState) (l : List JoyaiClass) (c : JoyaiClass) : after q (l ++ [c]) = (after q l).next c :=
  after_append q l [c]

/-- A digit, a newline and an isolated character leave nothing behind. -/
theorem after_start {l : List JoyaiClass} (hl : l ≠ []) (h : ∀ c ∈ l, c = digit ∨ c = newline ∨ c = cjk)
    (q : SplitState) : after q l = start := by
  obtain ⟨u, c, rfl⟩ := List.eq_nil_or_concat l |>.resolve_left hl
  rw [List.concat_eq_append, after_last]
  rcases h c (by simp) with rfl | rfl | rfl <;> rfl

theorem after_white {l : List JoyaiClass} (hl : l ≠ []) (h : ∀ c ∈ l, c = space ∨ c = blank) (q : SplitState) :
    after q l = afterSpace ∨ after q l = afterBlank := by
  obtain ⟨u, c, rfl⟩ := List.eq_nil_or_concat l |>.resolve_left hl
  rw [List.concat_eq_append, after_last]
  rcases h c (by simp) with rfl | rfl
  · exact .inl rfl
  · exact .inr rfl

theorem starts_start (s : List JoyaiClass) : Starts start s := by
  rw [Starts]
  split <;> simp [apart]

/-- What a piece of the source does to the condition. -/
def Steps (q : SplitState) (s : List JoyaiClass) : Prop :=
  let q' := after q (s.take (classLen s))
  let rest := s.drop (classLen s)
  (Clean q s ↔ ¬Swallows s ∧ Clean q' rest) ∧ (¬Swallows s → Starts q' rest)

theorem steps_piece {q : SplitState} {s l r : List JoyaiClass} (hs : s = l ++ r) (hlen : classLen s = l.length)
    (hno : ¬Swallows s) (hclean : Clean q l) (hstarts : Starts (after q l) r) : Steps q s := by
  have htake : s.take (classLen s) = l := by rw [hlen, hs, List.take_left]
  have hdrop : s.drop (classLen s) = r := by rw [hlen, hs, List.drop_left]
  rw [Steps, htake, hdrop]
  refine ⟨?_, fun _ => hstarts⟩
  nth_rewrite 1 [hs]
  rw [clean_append, and_iff_right hclean, and_iff_right hno]

theorem steps_swallow {q : SplitState} {s l r : List JoyaiClass} (hs : s = l ++ r) (hyes : Swallows s)
    (hr : r.head? = some cjk) (hq : (after q l).apart = false) : Steps q s := by
  refine ⟨iff_of_false ?_ (fun h => h.1 hyes), fun h => absurd hyes h⟩
  rw [hs, clean_append]
  rintro ⟨-, hclean⟩
  obtain ⟨t, rfl⟩ := List.head?_eq_some_iff.mp hr
  rw [hclean.1 rfl] at hq
  cases hq

variable {q : SplitState} {s : List JoyaiClass}

theorem head?_dropWhile_ne {c : JoyaiClass} (l : List JoyaiClass) : (l.dropWhile (· = c)).head? ≠ some c := by
  intro h
  have := List.head?_dropWhile_not (· = c) l
  rw [h] at this
  simp at this

theorem mem_takeWhile_eq {c d : JoyaiClass} {l : List JoyaiClass} (h : d ∈ l.takeWhile (· = c)) : d = c := by
  simpa using List.mem_takeWhile_imp h

/-- After a word comes no letter, and an isolated character only where nothing is swallowed. -/
theorem starts_word {l : List JoyaiClass} (h : (l.dropWhile (· = letter)).head? ≠ some cjk) :
    Starts word (l.dropWhile (· = letter)) := by
  have := head?_dropWhile_ne (c := letter) l
  rw [Starts]
  split <;> simp_all

theorem steps_letter (hq : Starts q (letter :: s)) : Steps q (letter :: s) := by
  have hsplit : letter :: s = (letter :: s).takeWhile (· = letter) ++ (letter :: s).dropWhile (· = letter) :=
    List.takeWhile_append_dropWhile.symm
  have hall : ∀ c ∈ (letter :: s).takeWhile (· = letter), c = letter := fun c => mem_takeWhile_eq
  have hafter : after q ((letter :: s).takeWhile (· = letter)) = word := by
    rw [after_letters hall q (by simp), if_neg (not_or.mpr ⟨hq.2.2, hq.2.1⟩)]
  by_cases hcjk : ((letter :: s).dropWhile (· = letter)).head? = some cjk
  · exact steps_swallow hsplit (.inl ⟨rfl, hcjk⟩) hcjk (by rw [hafter]; rfl)
  have hno : ¬Swallows (letter :: s) := by simpa [Swallows, white] using hcjk
  have hlen : classLen (letter :: s) = ((letter :: s).takeWhile (· = letter)).length := by
    have hspan : classSpan letterLike (letter :: s) = classSpan (· = letter) (letter :: s) := letterLike_span.mpr hcjk
    simp only [classLen, List.head?_cons, Option.some.injEq, reduceCtorEq, if_false, false_and, if_true, hspan]
    rfl
  refine steps_piece hsplit hlen hno (clean_of_none fun c hc => ?_) ?_
  · rw [hall c hc]
    decide
  · rw [hafter]
    exact starts_word hcjk

theorem steps_digit : Steps q (digit :: s) := by
  have hb := cuts_classLen (digit :: s) (List.cons_ne_nil _ _)
  have hlen : classLen (digit :: s) = min 3 (classSpan (· = digit) (digit :: s)) := by simp [classLen]
  have hdigits : ∀ c ∈ (digit :: s).take (classLen (digit :: s)), c = digit := by
    intro c hc
    refine mem_takeWhile_eq (l := digit :: s) ?_
    rw [← take_classSpan]
    exact (List.take_prefix_take_left (by omega)).subset hc
  have hne : (digit :: s).take (classLen (digit :: s)) ≠ [] := take_ne_nil hb.1 (List.cons_ne_nil _ _)
  refine steps_piece (List.take_append_drop (classLen (digit :: s)) _).symm (List.length_take_of_le hb.2).symm
    (by simp [Swallows, white]) (clean_of_none fun c hc => ?_) ?_
  · rw [hdigits c hc]
    decide
  · rw [after_start hne fun c hc => .inl (hdigits c hc)]
    exact starts_start _

theorem steps_cjk (hq : Starts q (cjk :: s)) : Steps q (cjk :: s) := by
  have hlen : classLen (cjk :: s) = ((cjk :: s).takeWhile (· = cjk)).length := by
    rw [classLen, List.head?_cons, if_neg (by decide), if_pos rfl, classSpan]
  have hall : ∀ c ∈ (cjk :: s).takeWhile (· = cjk), c = cjk := fun c => mem_takeWhile_eq
  have hne : (cjk :: s).takeWhile (· = cjk) ≠ [] := by simp
  refine steps_piece List.takeWhile_append_dropWhile.symm hlen (by simp [Swallows, white]) ?_ ?_
  · rw [List.takeWhile_cons, if_pos (by simp)]
    exact ⟨fun _ => hq, clean_cjks fun c => mem_takeWhile_eq⟩
  · rw [after_start hne fun c hc => .inr (.inr (hall c hc))]
    exact starts_start _

/-- The piece up to the last newline of white space. -/
theorem newlineRun_take (h : newlineRun s ≠ 0) :
    ∃ u, s.take (newlineRun s) = u ++ [newline] ∧ ∀ c ∈ u, c.white = true := by
  generalize hws : s.takeWhile white = ws
  have hrun : newlineRun s = ws.length - classSpan (· ≠ newline) ws.reverse := by rw [newlineRun, hws, classSpan]
  have htake : s.take (newlineRun s) = (ws.reverse.dropWhile (· ≠ newline)).reverse := by
    rw [← drop_classSpan, List.reverse_drop, List.length_reverse, List.reverse_reverse, ← hrun, ← hws, ← take_classSpan,
      List.take_take, Nat.min_eq_left newlineRun_le]
  obtain ⟨c, v, hv⟩ : ∃ c v, ws.reverse.dropWhile (· ≠ newline) = c :: v := by
    refine List.exists_cons_of_ne_nil fun hnil => h ?_
    have hlen := congrArg List.length htake
    rw [hnil, List.length_take_of_le (newlineRun_le.trans (classSpan_le _ _))] at hlen
    exact hlen
  have hc : c = newline := by
    have := List.head?_dropWhile_not (· ≠ newline) ws.reverse
    rw [hv] at this
    simpa using this
  refine ⟨v.reverse, by rw [htake, hv, hc, List.reverse_cons], fun d hd => ?_⟩
  have hmem : d ∈ ws.reverse := (List.dropWhile_suffix _).subset (hv ▸ List.mem_cons_of_mem c (List.mem_reverse.mp hd))
  rw [List.mem_reverse, ← hws] at hmem
  exact List.mem_takeWhile_imp hmem

theorem steps_newlines {c : JoyaiClass} (hrun : newlineRun (c :: s) ≠ 0)
    (hlen : classLen (c :: s) = newlineRun (c :: s)) (hno : ¬Swallows (c :: s)) : Steps q (c :: s) := by
  obtain ⟨u, htake, hu⟩ := newlineRun_take hrun
  have hle : newlineRun (c :: s) ≤ (c :: s).length := newlineRun_le.trans (classSpan_le _ _)
  refine steps_piece (List.take_append_drop (newlineRun (c :: s)) _).symm (by rw [hlen, List.length_take_of_le hle]) hno
    ?_ ?_
  · rw [htake]
    refine clean_of_none fun d hd => ?_
    rintro rfl
    rcases List.mem_append.mp hd with hd | hd
    · cases hu _ hd
    · simp at hd
  · rw [htake, after_last]
    exact starts_start _

theorem steps_newline : Steps q (newline :: s) := by
  have hne : newlineRun (newline :: s) ≠ 0 := newlineRun_newline
  exact steps_newlines hne (by simp [classLen, whiteLen, hne]) classLen_newline.2

/-- A run of punctuation and its newlines. -/
theorem puncts_split (l : List JoyaiClass) : l = l.take (punctRun l) ++ l.drop (punctRun l) ∧
    (l.take (punctRun l)).length = punctRun l ∧ l.take (punctRun l) =
      l.takeWhile (· = punct) ++ (l.dropWhile (· = punct)).takeWhile (· = newline) ∧
    l.drop (punctRun l) = (l.dropWhile (· = punct)).dropWhile (· = newline) := by
  refine ⟨(List.take_append_drop _ _).symm, List.length_take_of_le punctRun_le, ?_, ?_⟩
  · rw [punctRun, List.take_add, take_classSpan, drop_classSpan, take_classSpan]
  · rw [punctRun, ← List.drop_drop, drop_classSpan, drop_classSpan]

theorem clean_puncts (l : List JoyaiClass) : Clean q (l.take (punctRun l)) := by
  refine clean_of_none fun c hc => ?_
  rw [(puncts_split l).2.2.1, List.mem_append] at hc
  rcases hc with hc | hc
  · rw [mem_takeWhile_eq hc]
    decide
  · rw [mem_takeWhile_eq hc]
    decide

/-- After the run comes what the state after its punctuation lets start, or its newlines left nothing behind. -/
theorem starts_puncts {l : List JoyaiClass} (hq : after q (l.takeWhile (· = punct)) = onePunct ∨
      after q (l.takeWhile (· = punct)) = manyPunct)
    (hletter : (l.dropWhile (· = punct)).head? = some letter → after q (l.takeWhile (· = punct)) = manyPunct) :
    Starts (after q (l.take (punctRun l))) (l.drop (punctRun l)) := by
  obtain ⟨-, -, htake, hdrop⟩ := puncts_split l
  rw [htake, hdrop, after_append]
  by_cases hnil : (l.dropWhile (· = punct)).takeWhile (· = newline) = []
  · have hrest : (l.dropWhile (· = punct)).dropWhile (· = newline) = l.dropWhile (· = punct) := by
      have := List.takeWhile_append_dropWhile (p := (· = newline)) (l := l.dropWhile (· = punct))
      rwa [hnil, List.nil_append] at this
    have hpunct := head?_dropWhile_ne (c := punct) l
    rw [hnil, hrest, Starts]
    generalize after q (l.takeWhile (· = punct)) = q' at hq hletter ⊢
    split
    · next h =>
      obtain rfl := hletter h
      decide
    · next h => exact absurd h hpunct
    · rcases hq with h | h <;> simp [after, apart, h]
    · trivial
  · rw [after_start hnil fun c hc => .inr (.inl (mem_takeWhile_eq hc))]
    exact starts_start _

theorem steps_punct (hq : Starts q (punct :: s)) : Steps q (punct :: s) := by
  have hone : q.next punct = onePunct := by cases q <;> first | rfl | simp [Starts] at hq
  have hno : ¬Swallows (punct :: s) := classLen_punct.2
  by_cases hnext : s.head? = some letter
  · have hsplit : punct :: s = (punct :: s.takeWhile (· = letter)) ++ s.dropWhile (· = letter) := by
      rw [List.cons_append, List.takeWhile_append_dropWhile]
    have hne : s.takeWhile (· = letter) ≠ [] := by
      obtain ⟨t, rfl⟩ := List.head?_eq_some_iff.mp hnext
      simp
    have hafter : after q (punct :: s.takeWhile (· = letter)) = punctWord := by
      rw [after, List.foldl_cons, ← after, hone, after_letters (fun c => mem_takeWhile_eq) _ hne]
      rfl
    refine steps_piece hsplit (by simp [classLen, hnext, classSpan, Nat.add_comm]) hno (clean_of_none fun c hc => ?_) ?_
    · rcases List.mem_cons.mp hc with rfl | hc
      · decide
      · rw [mem_takeWhile_eq hc]
        decide
    · rw [hafter, Starts]
      have hletter := head?_dropWhile_ne (c := letter) s
      split
      · next h => exact absurd h hletter
      · exact ⟨by decide, by decide, by decide⟩
      · rfl
      · trivial
  · have hlen : classLen (punct :: s) = punctRun (punct :: s) := by simp [classLen, hnext]
    obtain ⟨hsplit, hlen', -, -⟩ := puncts_split (punct :: s)
    have hafter : after q ((punct :: s).takeWhile (· = punct)) = after onePunct (s.takeWhile (· = punct)) := by
      rw [List.takeWhile_cons, if_pos (by simp), after, List.foldl_cons, ← after, hone]
    have hmany : s.takeWhile (· = punct) ≠ [] → after onePunct (s.takeWhile (· = punct)) = manyPunct :=
      after_puncts (fun c => mem_takeWhile_eq) (.inl rfl)
    refine steps_piece hsplit (by rw [hlen, hlen']) hno (clean_puncts _) (starts_puncts ?_ ?_)
    · rw [hafter]
      by_cases hnil : s.takeWhile (· = punct) = []
      · rw [hnil]
        exact .inl rfl
      · exact .inr (hmany hnil)
    · rw [hafter]
      intro hletter
      refine hmany fun hnil => hnext ?_
      have := List.takeWhile_append_dropWhile (p := (· = punct)) (l := s)
      rw [hnil, List.nil_append] at this
      rw [← this]
      simpa using hletter

/-- A space or a blank in front of letters takes them along. -/
theorem steps_joined {c : JoyaiClass} (hc : c = space ∨ c = blank) (hnext : s.head? = some letter) :
    Steps q (c :: s) := by
  have hsplit : c :: s = (c :: s.takeWhile (· = letter)) ++ s.dropWhile (· = letter) := by
    rw [List.cons_append, List.takeWhile_append_dropWhile]
  have hne : s.takeWhile (· = letter) ≠ [] := by
    obtain ⟨t, rfl⟩ := List.head?_eq_some_iff.mp hnext
    simp
  have hafter : after q (c :: s.takeWhile (· = letter)) = word := by
    rw [after, List.foldl_cons, ← after, after_letters (fun c => mem_takeWhile_eq) _ hne]
    rcases hc with rfl | rfl <;> rfl
  by_cases hcjk : (s.dropWhile (· = letter)).head? = some cjk
  · exact steps_swallow hsplit (.inr (.inl ⟨by simpa using hc, hcjk⟩)) hcjk (by rw [hafter]; rfl)
  have hspan : classSpan letterLike s = classSpan (· = letter) s := letterLike_span.mpr hcjk
  have hlen : classLen (c :: s) = (c :: s.takeWhile (· = letter)).length := by
    rcases hc with rfl | rfl <;> simp [classLen, hnext, letterLike, hspan, Nat.add_comm] <;> rfl
  have hno : ¬Swallows (c :: s) := fun h => hcjk ((swallows_joined hc hnext).mp h)
  refine steps_piece hsplit hlen hno (clean_of_none fun d hd => ?_) ?_
  · rcases List.mem_cons.mp hd with rfl | hd
    · rcases hc with rfl | rfl <;> decide
    · rw [mem_takeWhile_eq hd]
      decide
  · rw [hafter]
    exact starts_word hcjk

theorem steps_spacePunct (hnext : s.head? = some punct) : Steps q (space :: s) := by
  obtain ⟨t, rfl⟩ := List.head?_eq_some_iff.mp hnext
  obtain ⟨hsplit, hlen, -, -⟩ := puncts_split (punct :: t)
  have hno : ¬Swallows (space :: punct :: t) := by simp [Swallows, classSpan, white]
  have hmany : after (q.next space) ((punct :: t).takeWhile (· = punct)) = manyPunct := by
    rw [List.takeWhile_cons, if_pos (by simp), after, List.foldl_cons, ← after]
    by_cases hnil : t.takeWhile (· = punct) = []
    · rw [hnil]
      rfl
    · exact after_puncts (fun c => mem_takeWhile_eq) (.inr rfl) hnil
  refine steps_piece (l := space :: (punct :: t).take (punctRun (punct :: t))) (congrArg (space :: ·) hsplit) ?_ hno ?_ ?_
  · rw [List.length_cons, hlen]
    simp [classLen, letterLike, Nat.add_comm]
  · exact ⟨fun h => absurd h (by decide), clean_puncts _⟩
  · exact starts_puncts (.inr hmany) fun _ => hmany

/-- White space that takes nothing along: all of it, or all but one in front of what may take that one. -/
theorem steps_blank {c : JoyaiClass} (hc : c = space ∨ c = blank) : Steps q (c :: s) := by
  by_cases hletter : s.head? = some letter
  · exact steps_joined hc hletter
  by_cases hcjk : s.head? = some cjk
  · refine steps_swallow (l := [c]) rfl (.inr (.inl ⟨by simpa using hc, ?_⟩)) hcjk ?_
    · obtain ⟨t, rfl⟩ := List.head?_eq_some_iff.mp hcjk
      rfl
    · rcases hc with rfl | rfl <;> rfl
  by_cases hpunct : c = space ∧ s.head? = some punct
  · obtain ⟨rfl, hpunct⟩ := hpunct
    exact steps_spacePunct hpunct
  have hnext : ∀ d, s.head? = some d → d ≠ letter ∧ d ≠ cjk ∧ (c = space → d ≠ punct) := by
    refine fun d hd => ⟨?_, ?_, ?_⟩
    · rintro rfl
      exact hletter hd
    · rintro rfl
      exact hcjk hd
    · rintro hs rfl
      exact hpunct ⟨hs, hd⟩
  have hclass := classLen_run hc hnext
  have hswallows := swallows_run hc hnext
  by_cases hrun : newlineRun (c :: s) = 0
  swap
  · refine steps_newlines hrun ?_ ?_
    · rw [hclass, if_pos hrun]
    · rw [hswallows]
      exact fun h => hrun h.1
  rw [if_neg (not_not_intro hrun)] at hclass
  have hsplit : c :: s = (c :: s).takeWhile white ++ (c :: s).dropWhile white := List.takeWhile_append_dropWhile.symm
  have hwhite : c.white = true := by rcases hc with rfl | rfl <;> rfl
  have hall : ∀ d ∈ (c :: s).takeWhile white, d = space ∨ d = blank := by
    intro d hd
    have hnewline := newlineRun_eq_zero.mp hrun d hd
    have hd := List.mem_takeWhile_imp hd
    cases d with
    | space => exact .inl rfl
    | blank => exact .inr rfl
    | newline => exact absurd rfl hnewline
    | letter | digit | punct | cjk => cases hd
  have hne : (c :: s).takeWhile white ≠ [] := by
    rw [List.takeWhile_cons, if_pos hwhite]
    exact List.cons_ne_nil _ _
  have hclean {l : List JoyaiClass} (hl : ∀ d ∈ l, d ∈ (c :: s).takeWhile white) : Clean q l := by
    refine clean_of_none fun d hd => ?_
    rcases hall d (hl d hd) with rfl | rfl <;> decide
  have hone : ¬1 < classSpan white (c :: s) → (c :: s).takeWhile white = [c] ∧ (c :: s).dropWhile white = s := by
    intro h
    have hnil : s.takeWhile white = [] := by
      rw [classSpan, List.takeWhile_cons, if_pos hwhite, List.length_cons] at h
      exact List.eq_nil_of_length_eq_zero (by omega)
    have hs := List.takeWhile_append_dropWhile (p := white) (l := s)
    rw [hnil, List.nil_append] at hs
    rw [List.takeWhile_cons, if_pos hwhite, List.dropWhile_cons, if_pos hwhite, hnil, hs]
    exact ⟨rfl, rfl⟩
  by_cases hx : ((c :: s).dropWhile white).head? = some cjk
  · have hmore : 1 < classSpan white (c :: s) := by
      by_contra h
      rw [(hone h).2] at hx
      exact hcjk hx
    refine steps_swallow hsplit (hswallows.mpr ⟨hrun, hmore, hx⟩) hx ?_
    rcases after_white hne hall q with h | h <;> rw [h] <;> rfl
  have hno : ¬Swallows (c :: s) := fun h => hx (hswallows.mp h).2.2
  split at hclass
  · next hsome =>
    have hle := classSpan_le white (c :: s)
    refine steps_piece (List.take_append_drop (classSpan white (c :: s) - 1) _).symm ?_ hno (hclean ?_) ?_
    · rw [hclass, List.length_take_of_le (by omega)]
    · intro d hd
      rw [← take_classSpan]
      exact (List.take_prefix_take_left (by omega)).subset hd
    · have hspan := classSpan_drop (s := c :: s) (p := white) (n := classSpan white (c :: s) - 1) (by omega)
      obtain ⟨d, t, hcons, hd⟩ := head?_of_classSpan (s := (c :: s).drop (classSpan white (c :: s) - 1))
        (p := white) (by omega)
      rw [hcons]
      cases d <;> trivial
  · next hnone =>
    refine steps_piece hsplit hclass hno (hclean fun d hd => hd) ?_
    rw [Starts]
    split
    · next h =>
      have := hone fun hmore => hnone ⟨hmore, .inl (by rw [h]; rfl)⟩
      rw [this.2] at h
      exact absurd h hletter
    · next h =>
      have := hone fun hmore => hnone ⟨hmore, .inr h⟩
      rw [this.2] at h
      rw [this.1]
      rcases hc with rfl | rfl
      · exact absurd ⟨rfl, h⟩ hpunct
      · have hafter : after q [blank] = afterBlank := rfl
        rw [hafter]
        exact ⟨by decide, by decide, by decide⟩
    · next h => exact absurd h hx
    · trivial

theorem steps (hq : Starts q s) (hs : s ≠ []) : Steps q s := by
  obtain ⟨c, t, rfl⟩ := List.exists_cons_of_ne_nil hs
  cases c with
  | letter => exact steps_letter hq
  | digit => exact steps_digit
  | punct => exact steps_punct hq
  | space => exact steps_blank (.inl rfl)
  | blank => exact steps_blank (.inr rfl)
  | newline => exact steps_newline
  | cjk => exact steps_cjk hq

theorem agree_iff_clean : ∀ {n : Nat} {s : List JoyaiClass} {q : SplitState}, s.length ≤ n → Starts q s →
    (Agree classLen documentedLen n s ↔ Clean q s)
  | 0, s, q, hn, _ => by
    obtain rfl := List.eq_nil_of_length_eq_zero (Nat.le_zero.mp hn)
    exact iff_of_true trivial trivial
  | n + 1, s, q, hn, hq => by
    by_cases hs : s = []
    · subst hs
      exact iff_of_true (.inl rfl) trivial
    obtain ⟨hclean, hstarts⟩ := steps hq hs
    have hlt := cuts_classLen.drop_lt hs
    rw [Agree, or_iff_right hs, classLen_eq_iff hs, hclean]
    exact and_congr_right fun hno => agree_iff_clean (by omega) (hstarts hno)

end SplitState
open SplitState

/-! ## Texts -/

/-- The class of an ASCII byte of the alphabet. -/
def byteClass (c : UInt8) : JoyaiClass :=
  if asciiAlpha c then letter
  else if asciiDigit c then digit
  else if joyaiAsciiPunctSymbol c then punct
  else if asciiNewline c then newline
  else if c = 32 then space
  else blank

/-- A character of the alphabet: ASCII letters, digits, punctuation and white space, and the
    characters the second rule isolates. -/
inductive JoyaiChar
  | ascii (c : UInt8) (h : (asciiAlpha c || asciiDigit c || joyaiAsciiPunctSymbol c || asciiSpace c) = true)
  | cjk (cp : UInt32) (h : utf8IsCjkHiraKata cp = true)

namespace JoyaiChar

def cls : JoyaiChar → JoyaiClass
  | ascii c _ => byteClass c
  | cjk _ _ => .cjk

def bytes : JoyaiChar → Bytes
  | ascii c _ => [c]
  | cjk cp _ => utf8Put cp

end JoyaiChar

def classes (cs : List JoyaiChar) : List JoyaiClass := cs.map JoyaiChar.cls

def joyaiText (cs : List JoyaiChar) : Bytes := cs.flatMap JoyaiChar.bytes

/-- The pieces of the documented split: numbers and the characters of the second rule are isolated
    one after the other, and the alternatives split what is left. -/
def documentedPieces (cs : List JoyaiChar) : List (List JoyaiChar) :=
  ((chop (fun t => digitPass (classes t)) cs.length cs).flatMap fun t =>
    chop (fun u => cjkPass (classes u)) t.length t).flatMap fun t =>
      chop (fun u => wordPass (classes u)) t.length t

theorem classes_take (n : Nat) (cs : List JoyaiChar) : classes (cs.take n) = (classes cs).take n := List.map_take

theorem classes_drop (n : Nat) (cs : List JoyaiChar) : classes (cs.drop n) = (classes cs).drop n := List.map_drop

theorem classes_length (cs : List JoyaiChar) : (classes cs).length = cs.length := List.length_map _

theorem Cuts.classes {f : List JoyaiClass → Nat} (hf : Cuts f) : Cuts fun cs => f (classes cs) := by
  intro cs hcs
  have := hf (Ds4.classes cs) (by simpa [Ds4.classes] using hcs)
  rwa [classes_length] at this

theorem documentedPieces_eq (cs : List JoyaiChar) :
    documentedPieces cs = chop (fun t => documentedLen (classes t)) cs.length cs := by
  have hdigit (t : List JoyaiChar) (_ : t ≠ [])
      (hlt : cjkPass (classes (t.take (digitPass (classes t)))) < digitPass (classes t)) :
      digitPass (classes (t.drop (cjkPass (classes (t.take (digitPass (classes t))))))) =
        digitPass (classes t) - cjkPass (classes (t.take (digitPass (classes t)))) := by
    rw [classes_take] at hlt ⊢
    rw [classes_drop]
    exact digitPass_drop _ hlt
  have hisolated : (fun t => cjkPass (classes (t.take (digitPass (classes t))))) = fun t => isolatedLen (classes t) :=
    funext fun t => by rw [classes_take, isolatedLen]
  have hword (t : List JoyaiChar) (_ : t ≠ [])
      (hlt : wordPass (classes (t.take (isolatedLen (classes t)))) < isolatedLen (classes t)) :
      isolatedLen (classes (t.drop (wordPass (classes (t.take (isolatedLen (classes t))))))) =
        isolatedLen (classes t) - wordPass (classes (t.take (isolatedLen (classes t)))) := by
    rw [classes_take] at hlt ⊢
    rw [classes_drop]
    exact isolatedLen_drop _ hlt
  have hdocumented : (fun t => wordPass (classes (t.take (isolatedLen (classes t))))) = fun t => documentedLen (classes t) :=
    funext fun t => by rw [classes_take, documentedLen]
  rw [documentedPieces, chop_flatMap cuts_digitPass.classes cuts_cjkPass.classes hdigit, hisolated,
    chop_flatMap cuts_isolatedLen.classes cuts_wordPass.classes hword, hdocumented]

/-! ## The bytes of a text -/

theorem byteClass_spec : ∀ c : UInt8,
    (asciiAlpha c || asciiDigit c || joyaiAsciiPunctSymbol c || asciiSpace c) = true →
      c < 128 ∧ c ≠ 0 ∧ asciiAlpha c = decide (byteClass c = letter) ∧ asciiDigit c = decide (byteClass c = digit) ∧
        joyaiAsciiPunctSymbol c = decide (byteClass c = punct) ∧ asciiNewline c = decide (byteClass c = newline) ∧
        asciiSpace c = (byteClass c).white ∧ decide (c = 32) = decide (byteClass c = space) ∧ byteClass c ≠ cjk := by
  apply forall_byte
  decide +kernel

theorem highByte_spec : ∀ c : UInt8, ¬c < 128 → c ≠ 0 ∧ asciiAlpha c = false ∧ asciiDigit c = false ∧
    joyaiAsciiPunctSymbol c = false ∧ asciiNewline c = false ∧ asciiSpace c = false := by
  apply forall_byte
  decide +kernel

/-- The lead byte of three. -/
theorem leadByte_spec : ∀ n < 16, ¬UInt8.ofNat (n + 224) < 128 ∧ utf8LenFromFirstByte (UInt8.ofNat (n + 224)) = 3 ∧
    (UInt8.ofNat (n + 224) &&& 0x0f).toNat = n := by decide +kernel

theorem tailByte_spec : ∀ n < 64, ¬UInt8.ofNat (n + 128) < 128 ∧ (UInt8.ofNat (n + 128) &&& 0x3f).toNat = n := by
  decide +kernel

/-- An isolated character is three bytes, and is read back from them. -/
theorem utf8Put_cjk {cp : UInt32} (h : utf8IsCjkHiraKata cp = true) : ∃ b0 b1 b2, utf8Put cp = [b0, b1, b2] ∧
    ¬b0 < 128 ∧ ¬b1 < 128 ∧ ¬b2 < 128 ∧ utf8LenFromFirstByte b0 = 3 ∧ ∀ r, utf8PeekOne (b0 :: b1 :: b2 :: r) = cp := by
  have hbounds : 0x3040 ≤ cp.toNat ∧ cp.toNat < 0xa000 := by
    simp only [utf8IsCjkHiraKata, Bool.or_eq_true, Bool.and_eq_true, decide_eq_true_eq, UInt32.le_iff_toNat_le,
      UInt32.reduceToNat] at h
    omega
  have h6 : (cp >>> 6).toNat = cp.toNat / 64 := by
    rw [UInt32.toNat_shiftRight, Nat.shiftRight_eq_div_pow]
    rfl
  have h12 : (cp >>> 12).toNat = cp.toNat / 4096 := by
    rw [UInt32.toNat_shiftRight, Nat.shiftRight_eq_div_pow]
    rfl
  have hput : utf8Put cp = [UInt8.ofNat (cp.toNat / 4096 + 224), UInt8.ofNat (cp.toNat / 64 % 64 + 128),
      UInt8.ofNat (cp.toNat % 64 + 128)] := by
    have h1 : ¬cp ≤ 0x7f := fun hle => absurd (show cp.toNat ≤ 0x7f from hle) (by omega)
    have h2 : ¬cp ≤ 0x7ff := fun hle => absurd (show cp.toNat ≤ 0x7ff from hle) (by omega)
    have h3 : cp ≤ 0xffff := show cp.toNat ≤ 0xffff by omega
    rw [utf8Put, if_neg h1, if_neg h2, if_pos h3, toChar_tail, toChar_tail, h6,
      @toChar_or _ _ 4 14 (by rw [h12]; omega) rfl, h12]
    rfl
  obtain ⟨hb0, hlen, hlead⟩ := leadByte_spec (cp.toNat / 4096) (by omega)
  obtain ⟨hb1, hmid⟩ := tailByte_spec (cp.toNat / 64 % 64) (by omega)
  obtain ⟨hb2, hlow⟩ := tailByte_spec (cp.toNat % 64) (by omega)
  refine ⟨_, _, _, hput, hb0, hb1, hb2, hlen, fun r => ?_⟩
  have hnext : nextUtf8Char (UInt8.ofNat (cp.toNat / 4096 + 224) :: UInt8.ofNat (cp.toNat / 64 % 64 + 128) ::
      UInt8.ofNat (cp.toNat % 64 + 128) :: r) = 3 := by
    rw [nextUtf8Char, List.headD_cons, hlen, if_neg (by simp)]
  rw [utf8PeekOne, hnext]
  apply UInt32.toNat_inj.mp
  simp only [List.headD_cons, List.getD_cons_succ, List.getD_cons_zero, UInt32.toNat_or, UInt32.toNat_shiftLeft,
    UInt8.toNat_toUInt32, hlead, hmid, hlow]
  have hhigh : (cp.toNat / 4096) <<< (UInt32.toNat 12 % 32) % 2 ^ 32 = 2 ^ 12 * (cp.toNat / 4096) := by
    rw [show UInt32.toNat 12 % 32 = 12 from rfl, Nat.shiftLeft_eq]
    omega
  have hmiddle : (cp.toNat / 64 % 64) <<< (UInt32.toNat 6 % 32) % 2 ^ 32 = 2 ^ 6 * (cp.toNat / 64 % 64) := by
    rw [show UInt32.toNat 6 % 32 = 6 from rfl, Nat.shiftLeft_eq]
    omega
  have hsum : 2 ^ 12 * (cp.toNat / 4096) + 2 ^ 6 * (cp.toNat / 64 % 64) =
      2 ^ 6 * (64 * (cp.toNat / 4096) + cp.toNat / 64 % 64) := by omega
  rw [hhigh, hmiddle, ← Nat.two_pow_add_eq_or_of_lt (by omega), hsum, ← Nat.two_pow_add_eq_or_of_lt (by omega)]
  omega

/-! ## ClassTest and lengths in bytes -/

section
variable {p : UInt8 → Bool} {P : JoyaiClass → Bool}

/-- A test of the first byte of a character says what one of its class says. -/
def ClassTest (p : UInt8 → Bool) (P : JoyaiClass → Bool) : Prop := ∀ c : JoyaiChar, p (c.bytes.headD 0) = P c.cls

theorem bytes_cjk (cp : UInt32) (h : utf8IsCjkHiraKata cp = true) :
    ∃ b0 b1 b2, (JoyaiChar.cjk cp h).bytes = [b0, b1, b2] ∧ ¬b0 < 128 ∧ utf8LenFromFirstByte b0 = 3 ∧ ∀ r, utf8PeekOne (b0 :: b1 :: b2 :: r) = cp := by
  obtain ⟨b0, b1, b2, hput, h0, -, -, hlen, hpeek⟩ := utf8Put_cjk h
  exact ⟨b0, b1, b2, hput, h0, hlen, hpeek⟩

theorem bytes_pos (c : JoyaiChar) : 0 < c.bytes.length := by
  cases c with
  | ascii c h => exact Nat.one_pos
  | cjk cp h =>
    obtain ⟨b0, b1, b2, hput, -⟩ := bytes_cjk cp h
    rw [hput]
    exact Nat.succ_pos _

theorem tests_of (hascii : ∀ c, (asciiAlpha c || asciiDigit c || joyaiAsciiPunctSymbol c || asciiSpace c) = true →
      p c = P (byteClass c)) (hcjk : ∀ c, ¬c < 128 → p c = P cjk) : ClassTest p P := by
  intro c
  cases c with
  | ascii c h => exact hascii c h
  | cjk cp h =>
    obtain ⟨b0, b1, b2, hput, h0, -⟩ := bytes_cjk cp h
    rw [hput]
    exact hcjk b0 h0

theorem tests_alpha : ClassTest asciiAlpha (· = letter) :=
  tests_of (fun c h => (byteClass_spec c h).2.2.1) fun c h => (highByte_spec c h).2.1

theorem tests_digit : ClassTest asciiDigit (· = digit) :=
  tests_of (fun c h => (byteClass_spec c h).2.2.2.1) fun c h => (highByte_spec c h).2.2.1

theorem tests_punct : ClassTest joyaiAsciiPunctSymbol (· = punct) :=
  tests_of (fun c h => (byteClass_spec c h).2.2.2.2.1) fun c h => (highByte_spec c h).2.2.2.1

theorem tests_newline : ClassTest asciiNewline (· = newline) :=
  tests_of (fun c h => (byteClass_spec c h).2.2.2.2.2.1) fun c h => (highByte_spec c h).2.2.2.2.1

theorem tests_space : ClassTest asciiSpace white :=
  tests_of (fun c h => (byteClass_spec c h).2.2.2.2.2.2.1) fun c h => (highByte_spec c h).2.2.2.2.2

theorem tests_letterLike : ClassTest joyaiLetterLike letterLike := by
  refine tests_of (fun c h => ?_) fun c h => ?_
  · obtain ⟨hlt, -, halpha, -, -, -, -, -, hcjk⟩ := byteClass_spec c h
    simp [joyaiLetterLike, hlt, halpha, letterLike, hcjk]
  · simp [joyaiLetterLike, h, letterLike]

theorem joyaiText_cons (c : JoyaiChar) (cs : List JoyaiChar) : joyaiText (c :: cs) = c.bytes ++ joyaiText cs :=
  List.flatMap_cons

theorem joyaiText_append (cs ds : List JoyaiChar) : joyaiText (cs ++ ds) = joyaiText cs ++ joyaiText ds :=
  List.flatMap_append

theorem length_le_joyaiText : ∀ cs : List JoyaiChar, cs.length ≤ (joyaiText cs).length
  | [] => Nat.le_refl 0
  | c :: cs => by
    have h1 := bytes_pos c
    have h2 := length_le_joyaiText cs
    rw [joyaiText_cons, List.length_append, List.length_cons]
    omega

theorem joyaiText_ne_nil {cs : List JoyaiChar} (h : cs ≠ []) : joyaiText cs ≠ [] :=
  List.length_pos_iff.mp ((List.length_pos_iff.mpr h).trans_le (length_le_joyaiText cs))

theorem classSpan_classes_cons {P : JoyaiClass → Bool} {c : JoyaiChar} (hP : P c.cls = true) (cs : List JoyaiChar) :
    classSpan P (classes (c :: cs)) = 1 + classSpan P (classes cs) := by
  rw [classSpan, classes, List.map_cons, List.takeWhile_cons, hP, if_pos rfl, List.length_cons, Nat.add_comm]
  rfl

theorem headD_joyaiText (c : JoyaiChar) (cs : List JoyaiChar) : (joyaiText (c :: cs)).headD 0 = c.bytes.headD 0 := by
  obtain ⟨b, r, hb⟩ := List.exists_cons_of_length_pos (bytes_pos c)
  rw [joyaiText_cons, hb]
  rfl

/-- Where a character starts. -/
def charOffset (cs : List JoyaiChar) (n : Nat) : Nat := (joyaiText (cs.take n)).length

theorem take_joyaiText (cs : List JoyaiChar) (n : Nat) :
    (joyaiText cs).take (charOffset cs n) = joyaiText (cs.take n) := by
  have h := joyaiText_append (cs.take n) (cs.drop n)
  rw [List.take_append_drop] at h
  rw [charOffset, h, List.take_left]

theorem drop_joyaiText (cs : List JoyaiChar) (n : Nat) :
    (joyaiText cs).drop (charOffset cs n) = joyaiText (cs.drop n) := by
  have h := joyaiText_append (cs.take n) (cs.drop n)
  rw [List.take_append_drop] at h
  rw [charOffset, h, List.drop_left]

theorem charOffset_add (cs : List JoyaiChar) (n m : Nat) :
    charOffset cs (n + m) = charOffset cs n + charOffset (cs.drop n) m := by
  rw [charOffset, List.take_add, joyaiText_append, List.length_append, charOffset, charOffset]

theorem charOffset_pos {cs : List JoyaiChar} (hcs : cs ≠ []) {n : Nat} (hn : 0 < n) : 0 < charOffset cs n := by
  obtain ⟨c, t, rfl⟩ := List.exists_cons_of_ne_nil hcs
  obtain ⟨m, rfl⟩ := Nat.exists_eq_add_one_of_ne_zero hn.ne'
  have := bytes_pos c
  rw [charOffset, List.take_succ_cons, joyaiText_cons, List.length_append]
  omega

theorem nextUtf8Char_joyaiText (c : JoyaiChar) (cs : List JoyaiChar) :
    nextUtf8Char (joyaiText (c :: cs)) = charOffset (c :: cs) 1 := by
  have hone : charOffset (c :: cs) 1 = c.bytes.length := by
    rw [charOffset, List.take_succ_cons, List.take_zero, joyaiText_cons, joyaiText, List.flatMap_nil, List.append_nil]
  rw [hone, joyaiText_cons]
  cases c with
  | ascii c h =>
    have hlt := (byteClass_spec c h).1
    simp [JoyaiChar.bytes, nextUtf8Char, utf8LenFromFirstByte, hlt]
  | cjk cp h =>
    obtain ⟨b0, b1, b2, hput, -, hlen, -⟩ := bytes_cjk cp h
    rw [hput, nextUtf8Char, List.cons_append, List.headD_cons, hlen, if_neg (by simp)]
    rfl

theorem joyaiCjkAt_joyaiText (c : JoyaiChar) (cs : List JoyaiChar) :
    joyaiCjkAt (joyaiText (c :: cs)) = decide (c.cls = cjk) := by
  rw [joyaiCjkAt, headD_joyaiText]
  cases c with
  | ascii c h =>
    obtain ⟨hlt, -, -, -, -, -, -, -, hcjk⟩ := byteClass_spec c h
    have hlt' : (JoyaiChar.ascii c h).bytes.headD 0 < 128 := hlt
    rw [if_pos hlt', JoyaiChar.cls, decide_eq_false hcjk]
  | cjk cp h =>
    obtain ⟨b0, b1, b2, hput, h0, -, hpeek⟩ := bytes_cjk cp h
    rw [joyaiText_cons, hput, List.headD_cons, if_neg h0]
    exact (congrArg utf8IsCjkHiraKata (hpeek _)).trans h

theorem spanLen_joyaiText (hp : ClassTest p P) (hcjk : P cjk = false) : ∀ cs : List JoyaiChar,
    spanLen p (joyaiText cs) = charOffset cs (classSpan P (classes cs))
  | [] => rfl
  | c :: cs => by
    have ih := spanLen_joyaiText hp hcjk cs
    have hc := hp c
    cases hP : P c.cls with
    | false =>
      obtain ⟨b, r, hb⟩ := List.exists_cons_of_length_pos (bytes_pos c)
      have hb' : p b = false := by rwa [hb, hP] at hc
      rw [spanLen, joyaiText_cons, hb, List.cons_append, List.takeWhile_cons, hb', classSpan, classes, List.map_cons,
        List.takeWhile_cons, hP]
      rfl
    | true =>
      have hspan := classSpan_classes_cons hP cs
      rw [hspan, charOffset_add]
      cases c with
      | ascii c h =>
        have hc' : p c = true := hc.trans hP
        rw [spanLen, joyaiText_cons, JoyaiChar.bytes, List.cons_append, List.takeWhile_cons, hc', if_pos rfl,
          List.length_cons, List.nil_append, Nat.add_comm]
        exact congrArg (1 + ·) ih
      | cjk cp h =>
        rw [JoyaiChar.cls, hcjk] at hP
        cases hP

theorem consumeChars_joyaiText {q : Bytes → Bool} (hq : ∀ c cs, q (joyaiText (c :: cs)) = P c.cls) : ∀ {n : Nat}
    {cs : List JoyaiChar}, cs.length ≤ n → consumeChars q n (joyaiText cs) = charOffset cs (classSpan P (classes cs))
  | n, [], _ => by cases n <;> rfl
  | n + 1, c :: cs, hn => by
    obtain ⟨b, r, hb⟩ := List.exists_cons_of_ne_nil (joyaiText_ne_nil (List.cons_ne_nil c cs))
    have hstep : consumeChars q (n + 1) (joyaiText (c :: cs)) = if q (joyaiText (c :: cs)) = true then
        nextUtf8Char (joyaiText (c :: cs)) + consumeChars q n ((joyaiText (c :: cs)).drop (nextUtf8Char (joyaiText (c :: cs)))) else 0 := by
      rw [hb]
      rfl
    rw [hstep, hq]
    cases hP : P c.cls with
    | false =>
      rw [if_neg (by decide), classSpan, classes, List.map_cons, List.takeWhile_cons, hP]
      rfl
    | true =>
      have hspan := classSpan_classes_cons hP cs
      rw [if_pos rfl, nextUtf8Char_joyaiText, drop_joyaiText, hspan, charOffset_add, List.drop_succ_cons, List.drop_zero,
        consumeChars_joyaiText hq (by simpa using hn)]

end

section
variable {cs : List JoyaiChar}

theorem joyaiText_single {l : List JoyaiChar} (h : ∀ c ∈ l, c.cls ≠ cjk) :
    joyaiText l = l.map fun c => c.bytes.headD 0 := by
  induction l with
  | nil => rfl
  | cons c l ih =>
    rw [joyaiText_cons, ih fun d hd => h d (List.mem_cons_of_mem _ hd), List.map_cons]
    cases c with
    | ascii c hc => rfl
    | cjk cp hc => exact absurd rfl (h _ List.mem_cons_self)

/-- Within a run of one-byte characters bytes and characters are counted alike. -/
theorem charOffset_span {P : JoyaiClass → Bool} (hcjk : P cjk = false) {n : Nat} (hn : n ≤ classSpan P (classes cs)) :
    charOffset cs n = n := by
  have hle : n ≤ cs.length := by
    rw [← classes_length]
    exact hn.trans (classSpan_le _ _)
  have hsingle : ∀ c ∈ cs.take n, c.cls ≠ cjk := by
    intro c hc hcls
    have hmem : c.cls ∈ (classes cs).take n := by
      rw [← classes_take]
      exact List.mem_map_of_mem hc
    have htake := (List.take_prefix_take_left hn).subset hmem
    rw [take_classSpan, hcls] at htake
    have := List.mem_takeWhile_imp htake
    rw [hcjk] at this
    cases this
  rw [charOffset, joyaiText_single hsingle, List.length_map, List.length_take_of_le hle]

theorem punctLen_joyaiText : punctLen (joyaiText cs) = charOffset cs (punctRun (classes cs)) := by
  rw [punctLen, spanLen_joyaiText tests_punct rfl, drop_joyaiText, spanLen_joyaiText tests_newline rfl, classes_drop,
    punctRun, charOffset_add]

theorem consumeLetters_joyaiText : joyaiConsumeLetters (joyaiText cs) = charOffset cs (classSpan letterLike (classes cs)) :=
  consumeChars_joyaiText (fun c cs => by rw [headD_joyaiText, tests_letterLike]) (length_le_joyaiText cs)

theorem lastNewlineEnd_joyaiText : lastNewlineEnd (joyaiText cs) = newlineRun (classes cs) := by
  generalize hw : classSpan white (classes cs) = w
  have hle : w ≤ cs.length := by
    rw [← hw, ← classes_length]
    exact classSpan_le _ _
  have hclasses : (classes cs).takeWhile white = (cs.take w).map JoyaiChar.cls := by
    rw [← take_classSpan, hw, ← classes_take, classes]
  have hsingle : ∀ c ∈ cs.take w, c.cls ≠ cjk := by
    intro c hc hcls
    have hmem : cjk ∈ (classes cs).takeWhile white := by
      rw [hclasses, ← hcls]
      exact List.mem_map_of_mem hc
    cases List.mem_takeWhile_imp hmem
  have hbytes : (joyaiText cs).takeWhile asciiSpace = (cs.take w).map fun c => c.bytes.headD 0 := by
    have hspan : ((joyaiText cs).takeWhile asciiSpace).length = charOffset cs w := by
      rw [← hw]
      exact spanLen_joyaiText tests_space rfl cs
    rw [← joyaiText_single hsingle, ← take_joyaiText, ← hspan]
    exact List.prefix_iff_eq_take.mp (List.takeWhile_prefix _)
  have htest : ((fun c : UInt8 => !asciiNewline c) ∘ fun c : JoyaiChar => c.bytes.headD 0) =
      (fun c : JoyaiClass => decide (c ≠ newline)) ∘ JoyaiChar.cls := by
    funext c
    rw [Function.comp_apply, Function.comp_apply, tests_newline c, decide_not]
  rw [lastNewlineEnd, newlineRun, hbytes, hclasses, ← List.map_reverse, ← List.map_reverse, List.takeWhile_map,
    List.takeWhile_map, htest, List.length_map, List.length_map, List.length_map, List.length_map]

/-- The test of the character at a place, past the end of the text included. -/
theorem test_at {p : UInt8 → Bool} {P : JoyaiClass → Bool} (hp : ClassTest p P) (n : Nat) :
    (decide (charOffset cs n < (joyaiText cs).length) && p ((joyaiText cs).getD (charOffset cs n) 0)) =
      ((classes cs).drop n).head?.any P := by
  have hgetD : (joyaiText cs).getD (charOffset cs n) 0 = (joyaiText (cs.drop n)).headD 0 := by
    rw [← drop_joyaiText]
    simp [List.headD_eq_head?_getD, List.head?_drop, List.getD_eq_getElem?_getD]
  have hlen : (joyaiText cs).length - charOffset cs n = (joyaiText (cs.drop n)).length := by
    rw [← drop_joyaiText, List.length_drop]
  rw [hgetD, ← classes_drop]
  cases hd : cs.drop n with
  | nil =>
    rw [hd] at hlen
    have hno : ¬charOffset cs n < (joyaiText cs).length := by
      rw [show (joyaiText []).length = 0 from rfl] at hlen
      omega
    rw [decide_eq_false hno]
    rfl
  | cons c t =>
    rw [hd, joyaiText_cons, List.length_append] at hlen
    have := bytes_pos c
    have hyes : charOffset cs n < (joyaiText cs).length := by omega
    rw [decide_eq_true hyes, headD_joyaiText, hp]
    rfl

theorem any_eq_some {o : Option JoyaiClass} {c : JoyaiClass} : (o.any fun d => decide (d = c)) = true ↔ o = some c := by
  cases o <;> simp

theorem ruleLen_cjk {cp : UInt32} (h : utf8IsCjkHiraKata cp = true) (t : List JoyaiChar) :
    ruleLen (joyaiText (.cjk cp h :: t)) = charOffset (.cjk cp h :: t) (classLen (classes (.cjk cp h :: t))) := by
  have hdigit : asciiDigit ((joyaiText (.cjk cp h :: t)).headD 0) = false := by rw [headD_joyaiText, tests_digit]; rfl
  have hcjk : joyaiCjkAt (joyaiText (.cjk cp h :: t)) = true := joyaiCjkAt_joyaiText _ _
  have hspan : classLen (classes (.cjk cp h :: t)) = 1 + classSpan (· = cjk) (classes t) := by
    rw [classes, List.map_cons, JoyaiChar.cls, classLen, List.head?_cons, if_neg (by decide), if_pos rfl, classSpan,
      List.takeWhile_cons, if_pos (by simp), List.length_cons, Nat.add_comm]
    rfl
  have hle : t.length ≤ (joyaiText (.cjk cp h :: t)).length := by
    have := length_le_joyaiText (.cjk cp h :: t)
    rw [List.length_cons] at this
    omega
  rw [ruleLen, hdigit, if_neg (by decide), hcjk, if_pos rfl, nextUtf8Char_joyaiText, drop_joyaiText, List.drop_succ_cons,
    List.drop_zero, consumeChars_joyaiText (P := (· = cjk)) joyaiCjkAt_joyaiText hle, hspan, charOffset_add]
  rfl

/-- The branch of the source for white space. -/
def whiteRule (s : Bytes) : Nat :=
  let p := spanLen asciiSpace s
  if lastNewlineEnd s ≠ 0 then lastNewlineEnd s
  else if p < s.length && 1 < p && (joyaiLetterLike (s.getD p 0) || joyaiAsciiPunctSymbol (s.getD p 0)) then p - 1
  else p

theorem whiteRule_joyaiText : whiteRule (joyaiText cs) = charOffset cs (whiteLen (classes cs)) := by
  have hoffset {n : Nat} (hn : n ≤ classSpan white (classes cs)) : charOffset cs n = n := charOffset_span rfl hn
  have hw : spanLen asciiSpace (joyaiText cs) = classSpan white (classes cs) := by
    rw [spanLen_joyaiText tests_space rfl, hoffset (Nat.le_refl _)]
  have hlike := @test_at cs _ _ tests_letterLike (classSpan white (classes cs))
  have hpunct := @test_at cs _ _ tests_punct (classSpan white (classes cs))
  rw [hoffset (Nat.le_refl _)] at hlike hpunct
  have hjump : (decide (classSpan white (classes cs) < (joyaiText cs).length) && decide (1 < classSpan white (classes cs)) &&
      (joyaiLetterLike ((joyaiText cs).getD (classSpan white (classes cs)) 0) ||
        joyaiAsciiPunctSymbol ((joyaiText cs).getD (classSpan white (classes cs)) 0))) = true ↔
      1 < classSpan white (classes cs) ∧ (((classes cs).drop (classSpan white (classes cs))).head?.any letterLike = true ∨
        ((classes cs).drop (classSpan white (classes cs))).head? = some punct) := by
    rw [← any_eq_some, ← hlike, ← hpunct]
    simp only [Bool.and_eq_true, Bool.or_eq_true, decide_eq_true_eq]
    tauto
  have hrun := newlineRun_le (s := classes cs)
  have hle : classSpan white (classes cs) - 1 ≤ classSpan white (classes cs) := Nat.sub_le _ _
  rw [whiteRule, lastNewlineEnd_joyaiText, hw, whiteLen]
  simp only [hjump]
  split
  · exact (hoffset hrun).symm
  split
  · exact (hoffset hle).symm
  · exact (hoffset (Nat.le_refl _)).symm

theorem ruleLen_ascii {c : UInt8} (h : (asciiAlpha c || asciiDigit c || joyaiAsciiPunctSymbol c || asciiSpace c) = true)
    (t : List JoyaiChar) :
    ruleLen (joyaiText (.ascii c h :: t)) = charOffset (.ascii c h :: t) (classLen (classes (.ascii c h :: t))) := by
  generalize hs : joyaiText (.ascii c h :: t) = s
  generalize hcs : JoyaiChar.ascii c h :: t = cs
  generalize hk : byteClass c = k
  obtain ⟨hlt, -, halpha, hdigit, hpunct, hnewline, hspace, hblank, hcjk⟩ := byteClass_spec c h
  rw [hk] at halpha hdigit hpunct hnewline hspace hblank hcjk
  have hclasses : classes cs = k :: classes t := by rw [← hcs, classes, List.map_cons, JoyaiChar.cls, hk, classes]
  have hhead : s.headD 0 = c := by rw [← hs, headD_joyaiText]; rfl
  have hat : joyaiCjkAt s = false := by rw [← hs, joyaiCjkAt_joyaiText, JoyaiChar.cls, hk, decide_eq_false hcjk]
  have hlike : joyaiLetterLike c = decide (k = letter) := by simp [joyaiLetterLike, hlt, halpha]
  have hone : charOffset cs 1 = 1 := by rw [← hcs]; rfl
  have hdrop : s.drop 1 = joyaiText t := by rw [← hs]; rfl
  have hnext {p : UInt8 → Bool} {P : JoyaiClass → Bool} (hp : ClassTest p P) :
      (decide (1 < s.length) && p (s.getD 1 0)) = (classes t).head?.any P := by
    have htest := @test_at cs _ _ hp 1
    rw [hone, ← hcs, hs, hcs, hclasses] at htest
    exact htest
  have hplus (n : Nat) : charOffset cs (1 + n) = 1 + charOffset t n := by
    rw [charOffset_add, hone, ← hcs]
    rfl
  have hs' : joyaiText cs = s := by rw [← hcs, hs]
  have hpl := hnext tests_punct
  have hal := hnext tests_alpha
  have hll := hnext tests_letterLike
  cases k with
  | letter =>
    have h1 : ruleLen s = joyaiConsumeLetters s := by
      simp only [ruleLen, hhead, hdigit, hat, hpunct, hlike]
      rfl
    have h2 : classLen (classes cs) = classSpan letterLike (classes cs) := by simp [classLen, hclasses]
    rw [h1, h2, ← hs', consumeLetters_joyaiText]
  | digit =>
    have h1 : ruleLen s = min 3 (spanLen asciiDigit s) := by
      simp only [ruleLen, hhead, hdigit]
      rfl
    have h2 : classLen (classes cs) = min 3 (classSpan (· = digit) (classes cs)) := by simp [classLen, hclasses]
    rw [h1, h2, ← hs', spanLen_joyaiText tests_digit rfl, charOffset_span rfl (Nat.le_refl _), charOffset_span rfl (Nat.min_le_right _ _)]
  | punct =>
    by_cases hn : (classes t).head? = some letter
    · have h1 : ruleLen s = 1 + spanLen asciiAlpha (s.drop 1) := by
        simp only [ruleLen, hhead, hdigit, hat, hpunct, Bool.and_assoc, hal, any_eq_some.mpr hn]
        rfl
      have h2 : classLen (classes cs) = 1 + classSpan (· = letter) (classes t) := by simp [classLen, hclasses, hn]
      rw [h1, h2, hdrop, spanLen_joyaiText tests_alpha rfl, hplus]
    · have hn' : (classes t).head?.any (· = letter) = false := by rw [← Bool.not_eq_true, any_eq_some]; exact hn
      have h1 : ruleLen s = punctLen s := by
        simp only [ruleLen, hhead, hdigit, hat, hpunct, hlike, hnewline, hblank, Bool.and_assoc, hal, hn']
        rfl
      have h2 : classLen (classes cs) = punctRun (classes cs) := by simp [classLen, hclasses, hn]
      rw [h1, h2, ← hs', punctLen_joyaiText]
  | newline =>
    have h1 : ruleLen s = whiteRule s := by
      simp only [ruleLen, whiteRule, hhead, hdigit, hat, hpunct, hlike, hnewline, hblank, hspace, Bool.and_assoc, hal]
      rfl
    have h2 : classLen (classes cs) = whiteLen (classes cs) := by simp [classLen, hclasses]
    rw [h1, h2, ← hs', whiteRule_joyaiText]
  | space =>
    by_cases hn : (classes t).head?.any letterLike = true
    · have h1 : ruleLen s = 1 + joyaiConsumeLetters (s.drop 1) := by
        simp only [ruleLen, hhead, hdigit, hat, hpunct, hlike, hnewline, Bool.and_assoc, hal, hll, hn]
        rfl
      have h2 : classLen (classes cs) = 1 + classSpan letterLike (classes t) := by simp [classLen, hclasses, hn]
      rw [h1, h2, hdrop, consumeLetters_joyaiText, hplus]
    · rw [Bool.not_eq_true] at hn
      by_cases hp : (classes t).head? = some punct
      · have h1 : ruleLen s = 1 + punctLen (s.drop 1) := by
          simp only [ruleLen, hhead, hdigit, hat, hpunct, hlike, hnewline, hblank, Bool.and_assoc, hal, hll, hn, hpl,
            any_eq_some.mpr hp]
          rfl
        have h2 : classLen (classes cs) = 1 + punctRun (classes t) := by simp [classLen, hclasses, hp, letterLike]
        rw [h1, h2, hdrop, punctLen_joyaiText, hplus]
      · have hp' : (classes t).head?.any (· = punct) = false := by rw [← Bool.not_eq_true, any_eq_some]; exact hp
        have h1 : ruleLen s = whiteRule s := by
          simp only [ruleLen, whiteRule, hhead, hdigit, hat, hpunct, hlike, hnewline, hblank, hspace, Bool.and_assoc, hal,
            hll, hn, hpl, hp']
          rfl
        have h2 : classLen (classes cs) = whiteLen (classes cs) := by simp [classLen, hclasses, hn, hp]
        rw [h1, h2, ← hs', whiteRule_joyaiText]
  | blank =>
    by_cases hn : (classes t).head?.any letterLike = true
    · have h1 : ruleLen s = 1 + joyaiConsumeLetters (s.drop 1) := by
        simp only [ruleLen, hhead, hdigit, hat, hpunct, hlike, hnewline, Bool.and_assoc, hal, hll, hn]
        rfl
      have h2 : classLen (classes cs) = 1 + classSpan letterLike (classes t) := by simp [classLen, hclasses, hn]
      rw [h1, h2, hdrop, consumeLetters_joyaiText, hplus]
    · rw [Bool.not_eq_true] at hn
      have h1 : ruleLen s = whiteRule s := by
        simp only [ruleLen, whiteRule, hhead, hdigit, hat, hpunct, hlike, hnewline, hblank, hspace, Bool.and_assoc, hal,
          hll, hn]
        rfl
      have h2 : classLen (classes cs) = whiteLen (classes cs) := by simp [classLen, hclasses, hn]
      rw [h1, h2, ← hs', whiteRule_joyaiText]
  | cjk => exact absurd rfl hcjk

end

/-- One round of the loop takes the characters of a class piece. -/
theorem pieceLen_joyaiText {cs : List JoyaiChar} (hcs : cs ≠ []) :
    pieceLen (joyaiText cs) = charOffset cs (classLen (classes cs)) := by
  have hrule : ruleLen (joyaiText cs) = charOffset cs (classLen (classes cs)) := by
    obtain ⟨c, t, rfl⟩ := List.exists_cons_of_ne_nil hcs
    cases c with
    | ascii c h => exact ruleLen_ascii h t
    | cjk cp h => exact ruleLen_cjk h t
  have hpos := charOffset_pos hcs (cuts_classLen.classes cs hcs).1
  rw [pieceLen, hrule, if_neg hpos.ne']

theorem pieces_joyaiText : ∀ (n : Nat) (cs : List JoyaiChar),
    pieces n (joyaiText cs) = (chop (fun t => classLen (classes t)) n cs).map joyaiText
  | 0, _ => rfl
  | n + 1, cs => by
    by_cases hcs : cs = []
    · rw [hcs]
      rfl
    have hb := cuts_classLen.classes cs hcs
    have htext := joyaiText_ne_nil hcs
    have hstep : pieces (n + 1) (joyaiText cs) = (joyaiText cs).take (pieceLen (joyaiText cs)) ::
        pieces n ((joyaiText cs).drop (pieceLen (joyaiText cs))) := by
      obtain ⟨b, r, hb⟩ := List.exists_cons_of_ne_nil htext
      rw [hb]
      rfl
    rw [hstep, pieceLen_joyaiText hcs, take_joyaiText, drop_joyaiText, pieces_joyaiText n, chop_succ _ n hcs, List.map_cons]

theorem cstr_joyaiText (cs : List JoyaiChar) : cstr (joyaiText cs) = joyaiText cs := by
  refine cstr_of_no_nul fun h => ?_
  obtain ⟨c, -, hc⟩ := List.mem_flatMap.mp h
  cases c with
  | ascii c h => exact (byteClass_spec c h).2.1 (List.mem_singleton.mp hc).symm
  | cjk cp h =>
    obtain ⟨b0, b1, b2, hput, h0, h1, h2, -⟩ := utf8Put_cjk h
    rw [JoyaiChar.bytes, hput] at hc
    simp only [List.mem_cons, List.not_mem_nil, or_false] at hc
    rcases hc with hc | hc | hc
    · exact (highByte_spec b0 h0).1 hc.symm
    · exact (highByte_spec b1 h1).1 hc.symm
    · exact (highByte_spec b2 h2).1 hc.symm

/-- Pieces of a text are told apart by their bytes. -/
theorem joyaiText_take_inj {cs : List JoyaiChar} : ∀ {n m : Nat}, n ≤ cs.length → m ≤ cs.length →
    joyaiText (cs.take n) = joyaiText (cs.take m) → n = m := by
  have hmono : ∀ {n m : Nat}, n < m → m ≤ cs.length → charOffset cs n < charOffset cs m := by
    intro n m hlt hm
    obtain ⟨k, rfl⟩ := Nat.exists_eq_add_of_lt hlt
    rw [Nat.add_assoc, charOffset_add]
    have hne : cs.drop n ≠ [] := by rw [ne_eq, List.drop_eq_nil_iff]; omega
    have := charOffset_pos hne (n := k + 1) (by omega)
    omega
  intro n m hn hm h
  have hlen : charOffset cs n = charOffset cs m := congrArg List.length h
  rcases Nat.lt_trichotomy n m with hlt | heq | hlt
  · have := hmono hlt hm
    omega
  · exact heq
  · have := hmono hlt hn
    omega

/-- The pieces of a text are the documented ones exactly when its isolated characters stand apart
    from what is before them. -/
theorem joyai_split_iff (cs : List JoyaiChar) :
    pieces (cstr (joyaiText cs)).length (cstr (joyaiText cs)) = (documentedPieces cs).map joyaiText ↔
      Clean start (classes cs) := by
  have hlen : (classes cs).length ≤ (joyaiText cs).length := by
    rw [classes_length]
    exact length_le_joyaiText cs
  rw [cstr_joyaiText, pieces_joyaiText, documentedPieces_eq,
    chop_fuel cuts_documentedLen.classes (Nat.le_refl cs.length) (length_le_joyaiText cs),
    chop_eq_iff cuts_classLen.classes cuts_documentedLen.classes joyaiText_take_inj]
  exact (agree_map JoyaiChar.cls _ cs).trans (agree_iff_clean hlen (starts_start _))

/-- A letter takes the kana after it along. -/
theorem joyai_split_differs : ¬∀ cs : List JoyaiChar,
    pieces (cstr (joyaiText cs)).length (cstr (joyaiText cs)) = (documentedPieces cs).map joyaiText := by
  intro h
  have := h [.ascii 97 (by decide), .cjk 0x3042 (by decide)]
  revert this
  decide

end Ds4
