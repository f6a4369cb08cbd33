import Ds4.Server.JsonArgs

/- JSON as RFC 8259 has it, against the reader's own spelling of a value.

   `StandardJson` is the grammar of the standard over bytes: a byte from 0x80 on is
   part of a character above ASCII, which a string may hold anywhere. It is the
   reader's grammar (`JsonSpell`) with the numbers of the standard, no control byte
   in a string and the four blanks of the standard, and no limit on nesting.

   PROVED here: each value of the standard is one the reader spells
   (`StandardJson.spell`), a text spells one value only (`JsonSpell.value_unique`),
   and the object a writer makes of members is one of the standard exactly where
   each bare value in it is (`standardObject_iff`). -/
namespace Ds4.Server
open Bytes

/-! ## The grammar -/

/-- The blanks of the standard: space, tab, line feed, carriage return. -/
def StandardBlank (w : Bytes) : Prop := ∀ c ∈ w, c = 32 ∨ c = 9 ∨ c = 10 ∨ c = 13

/-- Between its quotes a string has no control byte. -/
def StandardBody (t : Bytes) : Prop := JsonBody t ∧ ∀ c ∈ t, 32 ≤ c

def Digits (s : Bytes) : Prop := s ≠ [] ∧ ∀ c ∈ s, isDigit c = true

/-- No zero before another digit. -/
def IntPart (s : Bytes) : Prop := s = [48] ∨ (Digits s ∧ s.head? ≠ some 48)

def FracPart (s : Bytes) : Prop := s = [] ∨ ∃ r, Digits r ∧ s = 46 :: r

def ExpPart (s : Bytes) : Prop :=
  s = [] ∨ ∃ e sign r, (e = 101 ∨ e = 69) ∧ sign ∈ [[], [43], [45]] ∧ Digits r ∧ s = e :: (sign ++ r)

/-- A minus sign if any, an integer part, a fraction if any, an exponent if any. -/
def StandardNumber (s : Bytes) : Prop :=
  ∃ minus int frac exp, minus ∈ [[], [45]] ∧ IntPart int ∧ FracPart frac ∧ ExpPart exp ∧
    s = minus ++ (int ++ (frac ++ exp))

/-- `StandardJson kind v m`: `v` is a value of the standard (or one item of an array or
    object, or its items up to the closing bracket), and `m` the same without its blanks. -/
inductive StandardJson : JsonKind → Bytes → Bytes → Prop
  | string {t : Bytes} : StandardBody t → StandardJson .value (34 :: t ++ [34]) (34 :: t ++ [34])
  | word {t : Bytes} : t ∈ [utf8 "true", utf8 "false", utf8 "null"] → StandardJson .value t t
  | number {t : Bytes} : StandardNumber t → StandardJson .value t t
  | empty {w : Bytes} (b : Bool) : StandardBlank w →
      StandardJson .value (opening b :: w ++ [closing b]) [opening b, closing b]
  | node {s m : Bytes} (b : Bool) : StandardJson (.items b) s m →
      StandardJson .value (opening b :: s) (opening b :: m)
  | element {w v m : Bytes} : StandardBlank w → StandardJson .value v m → StandardJson (.item false) (w ++ v) m
  | member {w key w1 w2 v m : Bytes} : StandardBlank w → StandardBody key → StandardBlank w1 → StandardBlank w2 →
      StandardJson .value v m →
      StandardJson (.item true) (w ++ (34 :: key ++ 34 :: (w1 ++ 58 :: (w2 ++ v)))) (34 :: key ++ 34 :: 58 :: m)
  | last {i w m : Bytes} (b : Bool) : StandardJson (.item b) i m → StandardBlank w →
      StandardJson (.items b) (i ++ (w ++ [closing b])) (m ++ [closing b])
  | cons {i w m s ms : Bytes} (b : Bool) : StandardJson (.item b) i m → StandardBlank w →
      StandardJson (.items b) s ms → StandardJson (.items b) (i ++ (w ++ 44 :: s)) (m ++ 44 :: ms)

/-- A whole JSON value, without blanks around it. -/
def IsJson (v : Bytes) : Prop := ∃ m, StandardJson .value v m

/-! ## In the reader's grammar -/

theorem standardBlank_nil : StandardBlank [] := fun _ h => by cases h

theorem StandardBlank.blank {w : Bytes} (h : StandardBlank w) : Blank w := by
  intro c hc
  rcases h c hc with rfl | rfl | rfl | rfl <;> rfl

theorem dropWhile_digits {s : Bytes} (h : ∀ c ∈ s, isDigit c = true) (k : Bytes) :
    (s ++ k).dropWhile isDigit = k.dropWhile isDigit := List.dropWhile_append_of_pos h

/-- What begins with no digit is where the digits end. -/
theorem dropWhile_stop {k : Bytes} (h : ∀ c, k.head? = some c → isDigit c = false) : k.dropWhile isDigit = k := by
  cases k with
  | nil => rfl
  | cons c k => exact List.dropWhile_cons_of_neg (by simp [h c rfl])

theorem ExpPart.stop {s : Bytes} (h : ExpPart s) : ∀ c, s.head? = some c → isDigit c = false := by
  rcases h with rfl | ⟨e, sign, r, he, -, -, rfl⟩
  · intro c hc
    cases hc
  · intro c hc
    obtain rfl := Option.some.inj hc
    rcases he with rfl | rfl <;> rfl

theorem ExpPart.form {s : Bytes} (h : ExpPart s) : exponentForm 101 s = true := by
  rcases h with rfl | ⟨e, sign, r, he, hsign, ⟨hne, hall⟩, rfl⟩
  · rfl
  · have hskip : skipSign (sign ++ r) = r := by
      simp only [List.mem_cons, List.not_mem_nil, or_false] at hsign
      rcases hsign with rfl | rfl | rfl
      · cases r with
        | nil => exact absurd rfl hne
        | cons c r =>
          have hc := hall c List.mem_cons_self
          refine if_neg ?_
          rintro (rfl | rfl) <;> cases hc
      · rfl
      · rfl
    have hlower : toLower e = 101 := by rcases he with rfl | rfl <;> rfl
    rw [exponentForm, hlower, hskip, List.all_eq_true.mpr hall]
    cases r with
    | nil => exact absurd rfl hne
    | cons => rfl

theorem IntPart.digits {s : Bytes} (h : IntPart s) : Digits s := by
  rcases h with rfl | h
  · refine ⟨by simp, fun c hc => ?_⟩
    rw [List.mem_singleton.mp hc]
    rfl
  · exact h.1

theorem StandardNumber.form {s : Bytes} (h : StandardNumber s) : s ≠ [] ∧ numberForm s = true := by
  obtain ⟨minus, int, frac, exp, hminus, hint, hfrac, hexp, rfl⟩ := h
  obtain ⟨hne, hall⟩ := hint.digits
  obtain ⟨c, r, rfl⟩ := List.exists_cons_of_ne_nil hne
  have hc := hall c List.mem_cons_self
  have hskip : skipSign (minus ++ (c :: r ++ (frac ++ exp))) = c :: r ++ (frac ++ exp) := by
    simp only [List.mem_cons, List.not_mem_nil, or_false] at hminus
    rcases hminus with rfl | rfl
    · refine if_neg ?_
      rintro (rfl | rfl) <;> cases hc
    · rfl
  have hhead : (c :: r ++ (frac ++ exp)).headD 46 = c := rfl
  have hmantissa : mantissaForm isDigit 101 (c :: r ++ (frac ++ exp)) = true := by
    rw [mantissaForm, dropWhile_digits hall, hhead]
    rcases hfrac with rfl | ⟨f, ⟨-, hf⟩, rfl⟩
    · have hform := hexp.form
      rw [List.nil_append, dropWhile_stop hexp.stop]
      rcases hexp with rfl | ⟨e, sign, x, he, -, -, rfl⟩
      · exact hc
      · -- the exponent's letter is no point
        have hboth := Bool.and_eq_true_iff.mpr ⟨hform, hc⟩
        rcases he with rfl | rfl
        · exact hboth
        · exact hboth
    · have hdot : (46 :: f ++ exp).dropWhile isDigit = 46 :: (f ++ exp) := rfl
      have hne46 : (c != 46) = true := by
        rw [bne_iff_ne]
        rintro rfl
        cases hc
      rw [hdot]
      simp only [dropWhile_digits hf, dropWhile_stop hexp.stop, hexp.form, hne46, Bool.true_or, Bool.and_self]
  refine ⟨?_, ?_⟩
  · intro hnil
    have := congrArg List.length hnil
    simp at this
  · unfold numberForm
    rw [hskip]
    simp only [hmantissa, Bool.true_or]

/-- A number begins with a digit or a minus sign. -/
theorem StandardNumber.head {s : Bytes} (h : StandardNumber s) : ∃ c r, s = c :: r ∧ (c = 45 ∨ isDigit c = true) := by
  obtain ⟨minus, int, frac, exp, hminus, hint, -, -, rfl⟩ := h
  obtain ⟨hne, hall⟩ := hint.digits
  obtain ⟨c, r, rfl⟩ := List.exists_cons_of_ne_nil hne
  simp only [List.mem_cons, List.not_mem_nil, or_false] at hminus
  rcases hminus with rfl | rfl
  · exact ⟨c, _, rfl, .inr (hall c List.mem_cons_self)⟩
  · exact ⟨45, _, rfl, .inl rfl⟩

theorem JsonSpell.mono {kind : JsonKind} {d : Nat} {v m : Bytes} (h : JsonSpell kind d v m) :
    ∀ n, JsonSpell kind (d + n) v m := by
  induction h with
  | string ht => exact fun n => .string ht
  | word ht => exact fun n => .word ht
  | number hne hf => exact fun n => .number hne hf
  | @empty d w b hw =>
    intro n
    rw [Nat.add_right_comm]
    exact .empty b hw
  | @node d s m b _ ih =>
    intro n
    rw [Nat.add_right_comm]
    exact .node b (ih n)
  | element hw _ ih => exact fun n => .element hw (ih n)
  | member hw hkey hw1 hw2 _ ih => exact fun n => .member hw hkey hw1 hw2 (ih n)
  | last b _ hw ih => exact fun n => .last b (ih n) hw
  | cons b _ hw _ ih1 ih2 => exact fun n => .cons b (ih1 n) hw (ih2 n)

/-- A value of the standard is one of the reader's, at the depth it has. -/
theorem StandardJson.spell {kind : JsonKind} {v m : Bytes} (h : StandardJson kind v m) : ∃ d, JsonSpell kind d v m := by
  induction h with
  | string ht => exact ⟨0, .string ht.1⟩
  | word ht => exact ⟨0, .word ht⟩
  | number hn => exact ⟨0, .number hn.form.1 hn.form.2⟩
  | empty b hw => exact ⟨1, .empty b hw.blank⟩
  | node b _ ih =>
    obtain ⟨d, hd⟩ := ih
    exact ⟨d + 1, .node b hd⟩
  | element hw _ ih =>
    obtain ⟨d, hd⟩ := ih
    exact ⟨d, .element hw.blank hd⟩
  | member hw hkey hw1 hw2 _ ih =>
    obtain ⟨d, hd⟩ := ih
    exact ⟨d, .member hw.blank hkey.1 hw1.blank hw2.blank hd⟩
  | last b _ hw ih =>
    obtain ⟨d, hd⟩ := ih
    exact ⟨d, .last b hd hw.blank⟩
  | cons b _ hw _ ih1 ih2 =>
    obtain ⟨d, hd⟩ := ih1
    obtain ⟨e, he⟩ := ih2
    have he' := he.mono d
    rw [Nat.add_comm] at he'
    exact ⟨d + e, .cons b (hd.mono e) hw.blank he'⟩

/-- Without its blanks it is still one of the standard. -/
theorem StandardJson.compact {kind : JsonKind} {v m : Bytes} (h : StandardJson kind v m) : StandardJson kind m m := by
  induction h with
  | string ht => exact .string ht
  | word ht => exact .word ht
  | number hn => exact .number hn
  | empty b _ => exact .empty b standardBlank_nil
  | node b _ ih => exact .node b ih
  | element _ _ ih => exact .element standardBlank_nil ih
  | member _ hkey _ _ _ ih => exact .member standardBlank_nil hkey standardBlank_nil standardBlank_nil ih
  | last b _ _ ih => exact .last b ih standardBlank_nil
  | cons b _ _ _ ih1 ih2 => exact .cons b ih1 standardBlank_nil ih2

/-! ## One reading only -/

/-- Of two values at the same place, each delimited, there is one. -/
theorem JsonSpell.value_unique {d d' : Nat} {v v' m m' k k' : Bytes} (h : JsonSpell .value d v m)
    (h' : JsonSpell .value d' v' m') (hk : Delimited k) (hk' : Delimited k') (heq : v ++ k = v' ++ k') :
    v = v' ∧ k = k' := by
  have hs := (h.mono d').skipsTo k hk
  have hs' := (h'.mono d).skipsTo k' hk'
  rw [heq, Nat.add_comm, hs'] at hs
  obtain rfl := Option.some.inj hs
  exact ⟨List.append_cancel_right heq, rfl⟩

/-- What `f` reads, `g` reads too. -/
def Extends (f g : Bytes → Option Bytes) : Prop := ∀ s r, f s = some r → g s = some r

section
variable {f g : Bytes → Option Bytes}

theorem Extends.items (h : Extends f g) (close : UInt8) (fuel : Nat) :
    Extends (jsonSkipItems f close fuel) (jsonSkipItems g close fuel) := by
  induction fuel with
  | zero => exact fun s r hr => hr
  | succ fuel ih =>
    intro s r hr
    unfold jsonSkipItems at hr ⊢
    cases hf : f s with
    | none =>
      rw [hf] at hr
      cases hr
    | some x =>
      rw [hf, Option.map_some] at hr
      rw [h s x hf, Option.map_some]
      cases hx : skipWs x with
      | nil =>
        rw [hx] at hr
        cases hr
      | cons c t =>
        rw [hx] at hr
        simp only [] at hr ⊢
        split
        next hc => rwa [if_pos hc] at hr
        next hc =>
          rw [if_neg hc] at hr
          split
          next hcomma =>
            rw [if_pos hcomma] at hr
            exact ih t r hr
          next hcomma =>
            rw [if_neg hcomma] at hr
            cases hr

theorem Extends.seq (h : Extends f g) (opening close : UInt8) :
    Extends (jsonSkipSeq f opening close) (jsonSkipSeq g opening close) := by
  intro s r hr
  unfold jsonSkipSeq at hr ⊢
  cases hs : skipWs s with
  | nil =>
    rw [hs] at hr
    cases hr
  | cons c t =>
    rw [hs] at hr
    simp only [] at hr ⊢
    split
    next hc =>
      rw [if_pos hc] at hr
      cases ht : skipWs t with
      | nil =>
        rw [ht] at hr
        cases hr
      | cons c' t' =>
        rw [ht] at hr
        simp only [] at hr ⊢
        split
        next hclose => rwa [if_pos hclose] at hr
        next hclose =>
          rw [if_neg hclose] at hr
          exact h.items close _ _ r hr
    next hc =>
      rw [if_neg hc] at hr
      cases hr

theorem Extends.member (h : Extends f g) : Extends (jsonSkipMember f) (jsonSkipMember g) := by
  intro s r hr
  unfold jsonSkipMember at hr ⊢
  cases hs : (jsonString s).map fun v => skipWs v.2 with
  | none =>
    rw [hs] at hr
    cases hr
  | some x =>
    rw [hs] at hr
    cases x with
    | nil => cases hr
    | cons c t =>
      simp only [] at hr ⊢
      split
      next hc =>
        rw [if_pos hc] at hr
        exact h t r hr
      next hc =>
        rw [if_neg hc] at hr
        cases hr

theorem Extends.any {f' g' : Bytes → Option Bytes} (h : Extends f g) (h' : Extends f' g') :
    Extends (jsonSkipAny f f') (jsonSkipAny g g') := by
  intro s r hr
  unfold jsonSkipAny at hr ⊢
  simp only [] at hr ⊢
  split
  next hq => rwa [if_pos hq] at hr
  next hq =>
    rw [if_neg hq] at hr
    split
    next hb =>
      rw [if_pos hb] at hr
      exact h' _ r hr
    next hb =>
      rw [if_neg hb] at hr
      split
      next ha =>
        rw [if_pos ha] at hr
        exact h _ r hr
      next ha => rwa [if_neg ha] at hr

end

theorem jsonSkipValueDepth_succ (d : Nat) : Extends (jsonSkipValueDepth d) (jsonSkipValueDepth (d + 1)) := by
  induction d with
  | zero => exact Extends.any (fun _ _ h => by cases h) (fun _ _ h => by cases h)
  | succ d ih => exact (ih.seq 91 93).any (ih.member.seq 123 125)

/-- A higher ceiling reads what a lower one does. -/
theorem jsonSkipValueDepth_le (d n : Nat) : Extends (jsonSkipValueDepth d) (jsonSkipValueDepth (d + n)) := by
  induction n with
  | zero => exact fun s r h => h
  | succ n ih => exact fun s r h => jsonSkipValueDepth_succ (d + n) s r (ih s r h)

/-- What is read where a value stands is the value, and it nests within the limit. -/
theorem JsonSpell.rawValue_unique {d : Nat} {v m k x r : Bytes} (h : JsonSpell .value d v m) (hk : Delimited k)
    (hraw : jsonRawValue (v ++ k) = some (x, r)) : x = v ∧ r = k ∧ ∃ n, JsonSpell .value jsonMaxNesting v n := by
  obtain ⟨n, hn, hskip⟩ := jsonRawValue_sound hraw
  unfold jsonRawValue at hraw
  rw [h.value_head] at hraw hskip
  obtain ⟨r', hr', heq⟩ := Option.map_eq_some_iff.mp hraw
  cases heq
  have hlow := jsonSkipValueDepth_le jsonMaxNesting d _ _ hr'
  have hhigh := (h.mono jsonMaxNesting).skipsTo k hk
  rw [Nat.add_comm, hlow] at hhigh
  obtain rfl := Option.some.inj hhigh
  have hx := List.append_cancel_right hskip
  exact ⟨hx.symm, rfl, n, by rw [hx]; exact hn⟩

/-- Two spelled strings at the same place end at the same quote. -/
theorem JsonBody.unique {t t' k k' : Bytes} (h : JsonBody t) (h' : JsonBody t')
    (heq : 34 :: t ++ 34 :: k = 34 :: t' ++ 34 :: k') : k = k' := by
  obtain ⟨out, hout⟩ := jsonString_complete h
  obtain ⟨out', hout'⟩ := jsonString_complete h'
  have hread := hout k
  rw [heq, hout'] at hread
  exact (Prod.mk.inj (Option.some.inj hread)).2.symm

theorem blank_head {w k s : Bytes} {c : UInt8} (hw : Blank w) (hc : isSpace c = false) (heq : c :: s = w ++ k) :
    w = [] ∧ c :: s = k := by
  cases w with
  | nil => exact ⟨rfl, heq⟩
  | cons x w =>
    have hx := hw x List.mem_cons_self
    rw [← (List.cons.inj heq).1, hc] at hx
    cases hx

/-! ## The object a writer makes -/

theorem hexDigit_ge : ∀ n < 32, (32 : UInt8) ≤ hexDigit (UInt8.ofNat n >>> 4) ∧
    (32 : UInt8) ≤ hexDigit (UInt8.ofNat n &&& 15) := by
  decide

theorem all_ge {l : Bytes} (h : l.all (fun x => decide (32 ≤ x)) = true) : ∀ x ∈ l, 32 ≤ x :=
  fun x hx => of_decide_eq_true (List.all_eq_true.mp h x hx)

/-- What the writer escapes has no control byte left. -/
theorem jsonEscapeByte_ge (c : UInt8) : ∀ x ∈ jsonEscapeByte c, 32 ≤ x := by
  unfold jsonEscapeByte
  split
  next h => rcases h with rfl | rfl <;> exact all_ge rfl
  next =>
    split
    next => exact all_ge rfl
    next =>
      split
      next => exact all_ge rfl
      next =>
        split
        next => exact all_ge rfl
        next =>
          split
          next h =>
            have hn := hexDigit_ge c.toNat (UInt8.lt_iff_toNat_lt.mp h)
            rw [UInt8.ofNat_toNat] at hn
            simp [hn.1, hn.2]
          next h =>
            intro x hx
            rw [List.mem_singleton.mp hx]
            exact UInt8.not_lt.mp h

theorem jsonEscapeFragment_standard (s : Bytes) : StandardBody (jsonEscapeFragment s) := by
  refine ⟨jsonEscapeFragment_body s, fun c hc => ?_⟩
  obtain ⟨x, -, hx⟩ := List.mem_flatMap.mp hc
  exact jsonEscapeByte_ge x c hx

/-- The value of a member as the writer spells it. -/
def argValueText (a : JsonArg) : Bytes := if a.isString then jsonEscape a.value else a.value

def StandardArg (a : JsonArg) : Prop := a.isString = false → IsJson a.value

/-- The members between commas, up to the closing brace. -/
def pairsText (args : List JsonArg) : Bytes := (utf8 ",").intercalate (args.map appendJsonArgPair) ++ [125]

theorem appendJsonArgPair_eq (a : JsonArg) (k : Bytes) :
    appendJsonArgPair a ++ k = 34 :: jsonEscapeFragment a.key ++ 34 :: 58 :: (argValueText a ++ k) := by
  have hcolon : utf8 ":" = [58] := rfl
  simp [appendJsonArgPair, jsonEscape, argValueText, hcolon]

theorem pairsText_one (a : JsonArg) : pairsText [a] = appendJsonArgPair a ++ [125] := by simp [pairsText]

theorem pairsText_cons (a b : JsonArg) (args : List JsonArg) :
    pairsText (a :: b :: args) = appendJsonArgPair a ++ 44 :: pairsText (b :: args) := by
  have hcomma : utf8 "," = [44] := rfl
  simp [pairsText, List.intercalate_cons_cons, hcomma]

theorem pairsText_head (a : JsonArg) (args : List JsonArg) : ∃ r, pairsText (a :: args) = 34 :: r := by
  cases args with
  | nil => exact ⟨_, by rw [pairsText_one, appendJsonArgPair_eq]; rfl⟩
  | cons b args => exact ⟨_, by rw [pairsText_cons, appendJsonArgPair_eq]; rfl⟩

theorem JsonArg.Ok.valueText_spell {a : JsonArg} (ha : a.Ok) : ∃ d m, JsonSpell .value d (argValueText a) m := by
  rw [argValueText]
  cases hs : a.isString with
  | true => exact ⟨0, _, .string (jsonEscapeFragment_body a.value)⟩
  | false => exact ⟨_, _, ha.spell hs⟩

theorem StandardArg.value {a : JsonArg} (h : StandardArg a) : IsJson (argValueText a) := by
  rw [argValueText]
  cases hs : a.isString with
  | true => exact ⟨_, .string (jsonEscapeFragment_standard a.value)⟩
  | false => exact h hs

/-- A member that the writer made, read as one of the standard: its value is one. -/
theorem member_value {a : JsonArg} (ha : a.Ok) {i m k k' : Bytes} (hi : StandardJson (.item true) i m)
    (hk : Delimited k) (hk' : Delimited k') (heq : appendJsonArgPair a ++ k = i ++ k') :
    IsJson (argValueText a) ∧ k = k' := by
  cases hi with
  | @member w key w1 w2 v m hw hkey hw1 hw2 hv =>
    obtain ⟨d, n, hspell⟩ := ha.valueText_spell
    obtain ⟨d', hv'⟩ := hv.spell
    rw [appendJsonArgPair_eq, List.append_assoc] at heq
    obtain ⟨rfl, heq⟩ := blank_head hw.blank (by decide) heq
    have hbody : 34 :: key ++ 34 :: (w1 ++ 58 :: (w2 ++ v)) ++ k' = 34 :: key ++ 34 :: (w1 ++ 58 :: (w2 ++ (v ++ k'))) := by
      simp
    rw [← List.cons_append, hbody] at heq
    have hcolon := JsonBody.unique (jsonEscapeFragment_body a.key) hkey.1 heq
    obtain ⟨-, hcolon⟩ := blank_head hw1.blank (by decide) hcolon
    have hval : argValueText a ++ k = w2 ++ (v ++ k') := (List.cons.inj hcolon).2
    have hskip := congrArg skipWs hval
    rw [hspell.value_head, skipWs_append hw2.blank, hv'.value_head] at hskip
    obtain ⟨hvv, hkk⟩ := JsonSpell.value_unique hspell hv' hk hk' hskip
    rw [hvv]
    exact ⟨⟨m, hv⟩, hkk⟩

theorem delimited_comma (k : Bytes) : Delimited (44 :: k) := delimited_cons (by decide) k

theorem delimited_brace (k : Bytes) : Delimited (125 :: k) := delimited_cons (by decide) k

/-- The items of an object of the standard, where they are what a writer made. -/
theorem items_values {args : List JsonArg} (hargs : ∀ a ∈ args, a.Ok) (hne : args ≠ []) {s m : Bytes}
    (h : StandardJson (.items true) s m) (heq : s = pairsText args) : ∀ a ∈ args, IsJson (argValueText a) := by
  induction args generalizing s m with
  | nil => exact absurd rfl hne
  | cons a args ih =>
    have ha := hargs a List.mem_cons_self
    -- the text after the first member, and the items after the first item
    obtain ⟨i, w, mi, hi, hw, hcase⟩ : ∃ i w mi, StandardJson (.item true) i mi ∧ StandardBlank w ∧
        (s = i ++ (w ++ [125]) ∨ ∃ s' ms, StandardJson (.items true) s' ms ∧ s = i ++ (w ++ 44 :: s')) := by
      cases h with
      | last _ hi hw => exact ⟨_, _, _, hi, hw, .inl rfl⟩
      | cons _ hi hw hs => exact ⟨_, _, _, hi, hw, .inr ⟨_, _, hs, rfl⟩⟩
    cases args with
    | nil =>
      rw [pairsText_one] at heq
      intro b hb
      rw [List.mem_singleton.mp hb]
      rcases hcase with hs | ⟨s', ms, -, hs⟩
      · exact (member_value ha hi (delimited_brace []) (delimited_blank hw.blank (by decide) [])
          (heq.symm.trans hs)).1
      · exact (member_value ha hi (delimited_brace []) (delimited_blank hw.blank (by decide) s')
          (heq.symm.trans hs)).1
    | cons b args =>
      rw [pairsText_cons] at heq
      rcases hcase with hs | ⟨s', ms, hitems, hs⟩
      · obtain ⟨hval, hk⟩ := member_value ha hi (delimited_comma _) (delimited_blank hw.blank (by decide) [])
          (heq.symm.trans hs)
        obtain ⟨-, hk⟩ := blank_head hw.blank (by decide) hk
        cases hk
      · obtain ⟨hval, hk⟩ := member_value ha hi (delimited_comma _) (delimited_blank hw.blank (by decide) s')
          (heq.symm.trans hs)
        obtain ⟨-, hk⟩ := blank_head hw.blank (by decide) hk
        have hrest := ih (fun c hc => hargs c (List.mem_cons_of_mem _ hc)) (by simp) hitems (List.cons.inj hk).2.symm
        exact List.forall_mem_cons.mpr ⟨hval, hrest⟩

theorem member_standard {a : JsonArg} (h : StandardArg a) : ∃ m, StandardJson (.item true) (appendJsonArgPair a) m := by
  obtain ⟨m, hm⟩ := h.value
  have hmember := StandardJson.member standardBlank_nil (jsonEscapeFragment_standard a.key) standardBlank_nil
    standardBlank_nil hm
  have heq := appendJsonArgPair_eq a []
  rw [List.append_nil, List.append_nil] at heq
  rw [heq]
  exact ⟨_, hmember⟩

theorem items_standard {args : List JsonArg} (hne : args ≠ []) (h : ∀ a ∈ args, StandardArg a) :
    ∃ m, StandardJson (.items true) (pairsText args) m := by
  induction args with
  | nil => exact absurd rfl hne
  | cons a args ih =>
    obtain ⟨m, hm⟩ := member_standard (h a List.mem_cons_self)
    cases args with
    | nil =>
      rw [pairsText_one]
      exact ⟨_, .last true hm standardBlank_nil⟩
    | cons b args =>
      obtain ⟨ms, hms⟩ := ih (by simp) fun c hc => h c (List.mem_cons_of_mem _ hc)
      rw [pairsText_cons]
      exact ⟨_, .cons true hm standardBlank_nil hms⟩

/-- The object the writer makes is one of the standard exactly where its bare values are. -/
theorem standardObject_iff {args : List JsonArg} (hargs : ∀ a ∈ args, a.Ok) :
    IsJson (123 :: pairsText args) ↔ ∀ a ∈ args, StandardArg a := by
  by_cases hne : args = []
  · subst hne
    refine ⟨fun _ a ha => absurd ha List.not_mem_nil, fun _ => ⟨_, .empty (w := []) true standardBlank_nil⟩⟩
  constructor
  · rintro ⟨m, hm⟩
    generalize htext : 123 :: pairsText args = s at hm
    have hvalues : ∀ a ∈ args, IsJson (argValueText a) := by
      obtain ⟨a, rest, rfl⟩ := List.exists_cons_of_ne_nil hne
      obtain ⟨r, hr⟩ := pairsText_head a rest
      cases hm with
      | string => cases htext
      | word ht =>
        simp only [List.mem_cons, List.not_mem_nil, or_false] at ht
        rcases ht with rfl | rfl | rfl <;> cases htext
      | number hn =>
        have hbyte := List.all_eq_true.mp (numberForm_all hn.form.2) 123 (by rw [← htext]; exact List.mem_cons_self)
        cases hbyte
      | @empty w b hw =>
        rw [List.cons_append] at htext
        have htail := (List.cons.inj htext).2
        rw [hr] at htail
        obtain ⟨-, htail⟩ := blank_head hw.blank (by decide) htail
        cases b <;> cases htail
      | @node s m b hitems =>
        cases b with
        | false => cases (List.cons.inj htext).1
        | true => exact items_values hargs hne hitems (List.cons.inj htext).2.symm
    intro a ha hbare
    have := hvalues a ha
    rwa [argValueText, hbare, if_neg Bool.false_ne_true] at this
  · intro h
    obtain ⟨m, hm⟩ := items_standard hne h
    exact ⟨_, .node true hm⟩

end Ds4.Server
