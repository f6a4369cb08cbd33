import Ds4.Resume
import Ds4.Agent.DsmlParser

/- The parser of tool calls over a whole stream of bytes.

   `round_iff` and `round_value` say what one round of the parser's loop does. The parser
   is a reader in the sense of `Resume` (`dsmlReader`): a round does not change when more
   bytes follow (`round_more`), so it does not matter how the bytes are cut into calls of
   `agent_dsml_feed` (`feeds_read`).

   What is proved: behind the first start of a block the parser accepts the texts that
   the grammar writes (`Spells`) and no other, and the calls are what the tags say
   (`dsml_stream_exact`). -/
namespace Ds4.Agent
open Ds4 Bytes Resume

/-! ## Rounds -/

theorem tagName_toolCalls : TagName (utf8 "tool_calls") := by
  unfold TagName
  decide +kernel

theorem tagName_invoke : TagName (utf8 "invoke") := by
  unfold TagName
  decide +kernel

theorem tagName_parameter : TagName (utf8 "parameter") := by
  unfold TagName
  decide +kernel


/-- The text up to its first bracket. -/
theorem bracket_iff {s a : Bytes} :
    (∃ r, strchr 62 (cstr s) = some (a, r)) ↔ ∃ r, s = a ++ 62 :: r ∧ 62 ∉ a ∧ 0 ∉ a := by
  rw [strchr_iff]
  constructor
  · rintro ⟨r, hr, ha⟩
    have h0 := cstr_no_nul s
    obtain ⟨k, hk⟩ := List.takeWhile_prefix (fun x : UInt8 => decide (x ≠ 0)) (l := s)
    rw [show s.takeWhile (fun x => decide (x ≠ 0)) = a ++ 62 :: r from hr] at hk
    rw [hr, List.mem_append, not_or] at h0
    exact ⟨r ++ k, by rw [← hk]; simp, ha, h0.1⟩
  · rintro ⟨r, rfl, ha, h0⟩
    rw [show a ++ 62 :: r = (a ++ [62]) ++ r by simp, cstr_append (by simpa using h0)]
    exact ⟨cstr r, by simp, ha⟩

/-- What a round makes of a text between two tags. -/
inductive Round (p : AgentDsmlParser) : Bytes → AgentDsmlParser → Prop
  | blank {c : UInt8} {r : Bytes} : tagSpace c = true → Round p (c :: r) { p with parsePos := p.parsePos + 1 }
  | finish {t r : Bytes} : ClosingTag (utf8 "tool_calls") t →
      Round p (t ++ r) { p.push with parsePos := p.parsePos + t.length, state := .done }
  | close {t r : Bytes} : ClosingTag (utf8 "invoke") t → Round p (t ++ r) { p.push with parsePos := p.parsePos + t.length }
  | other {a r : Bytes} : 62 ∉ a → 0 ∉ a → (∀ c ∈ a.head?, tagSpace c = false) →
      ¬ClosingTag (utf8 "tool_calls") (a ++ [62]) → ¬ClosingTag (utf8 "invoke") (a ++ [62]) →
      Round p (a ++ 62 :: r) (agentDsmlOpenTag p (a ++ [62]))

/-- Up to the first bracket: a closing tag is all of that text. -/
theorem closeTagAt_none_iff {name a r : Bytes} (hn : TagName name) (ha : 62 ∉ a) :
    agentDsmlCloseTagAt name (a ++ 62 :: r) = none ↔ ¬ClosingTag name (a ++ [62]) := by
  rw [Option.eq_none_iff_forall_ne_some]
  constructor
  · intro h ht
    refine h _ (closeTagAt_iff.mpr ⟨a ++ [62], r, by simp, ht, rfl⟩)
  · intro h n hn'
    obtain ⟨t, k, hk, ht, -⟩ := closeTagAt_iff.mp hn'
    obtain ⟨m, rfl, -, hm, -⟩ := ht.shape hn
    obtain ⟨rfl, -⟩ := first_byte ha (by simp [hm]) (show a ++ 62 :: r = (60 :: m) ++ 62 :: k by simpa using hk)
    exact h ht

theorem closing_head {name t r : Bytes} (hn : TagName name) (ht : ClosingTag name t) :
    ∃ k, t ++ r = 60 :: k ∧ tagSpace 60 = false := by
  obtain ⟨m, rfl, -⟩ := ht.shape hn
  exact ⟨m ++ [62] ++ r, by simp, by decide⟩

/-- The two closing tags have different names. -/
theorem closing_apart {t r : Bytes} (ht : ClosingTag (utf8 "invoke") t) :
    agentDsmlCloseTagAt (utf8 "tool_calls") (t ++ r) = none := by
  obtain ⟨w, bar, w', rfl, -⟩ := ht
  have hhead : startsWith (closeTagHead (utf8 "tool_calls"))
      (closeTagHead (utf8 "invoke") ++ w ++ bar ++ w' ++ [62] ++ r) = false := by
    simp only [List.append_assoc]
    rfl
  rw [agentDsmlCloseTagAt, hhead]
  rfl

theorem round_iff {p q : AgentDsmlParser} {s : Bytes} (hp : p.state = .structural) :
    agentDsmlRound p s = some q ↔ Round p s q := by
  unfold agentDsmlRound
  split
  · next h => exact absurd (hp.symm.trans h) (by decide)
  · constructor
    · intro h
      cases s with
      | nil => cases h
      | cons c r =>
        dsimp only at h
        split at h
        · next hc =>
          obtain rfl := Option.some.inj h
          exact .blank hc
        · next hc =>
          split at h
          · next n hn =>
            obtain rfl := Option.some.inj h
            obtain ⟨t, k, hs, ht, rfl⟩ := closeTagAt_iff.mp hn
            rw [hs]
            exact .finish ht
          · next hno =>
            split at h
            · next n hn =>
              obtain rfl := Option.some.inj h
              obtain ⟨t, k, hs, ht, rfl⟩ := closeTagAt_iff.mp hn
              rw [hs]
              exact .close ht
            · next hno' =>
              obtain ⟨⟨a, k⟩, hk, rfl⟩ := Option.map_eq_some_iff.mp h
              obtain ⟨r', hs, h62, h0⟩ := bracket_iff.mp ⟨k, hk⟩
              have hnone := Option.eq_none_iff_forall_ne_some.mpr fun n hn => hno n hn
              have hnone' := Option.eq_none_iff_forall_ne_some.mpr fun n hn => hno' n hn
              rw [hs] at hnone hnone' ⊢
              refine .other h62 h0 (fun d hd => ?_) ((closeTagAt_none_iff tagName_toolCalls h62).mp hnone)
                ((closeTagAt_none_iff tagName_invoke h62).mp hnone')
              cases a with
              | nil => cases hd
              | cons x a =>
                obtain rfl : x = d := Option.some.inj hd
                rw [← (List.cons.inj hs).1]
                simpa using hc
    · intro h
      cases h with
      | blank hc =>
        dsimp only
        rw [if_pos hc]
      | finish ht =>
        next t r =>
        obtain ⟨k, hk, hsp⟩ := closing_head (r := r) tagName_toolCalls ht
        have hat := closeTagAt_complete ht r
        rw [hk] at hat ⊢
        dsimp only
        rw [hsp, if_neg Bool.false_ne_true, hat]
      | close ht =>
        next t r =>
        obtain ⟨k, hk, hsp⟩ := closing_head (r := r) tagName_invoke ht
        have hat := closeTagAt_complete ht r
        have hno := @closing_apart t r ht
        rw [hk] at hat hno ⊢
        dsimp only
        rw [hsp, if_neg Bool.false_ne_true, hno, hat]
      | other h62 h0 hsp ht ht' =>
        next a r =>
        have hno := (closeTagAt_none_iff (r := r) tagName_toolCalls h62).mpr ht
        have hno' := (closeTagAt_none_iff (r := r) tagName_invoke h62).mpr ht'
        obtain ⟨k, hk⟩ := bracket_iff.mpr ⟨r, rfl, h62, h0⟩
        cases a with
        | nil =>
          rw [List.nil_append] at hk hno hno' ⊢
          dsimp only
          rw [show tagSpace 62 = false from rfl, if_neg Bool.false_ne_true, hno, hno', hk]
          rfl
        | cons c a =>
          rw [List.cons_append] at hk hno hno' ⊢
          dsimp only
          rw [hsp c rfl, if_neg Bool.false_ne_true, hno, hno', hk]
          rfl
  · next h => exact absurd hp h

/-- After the opening tag of a call. -/
def AgentDsmlParser.invoked (p : AgentDsmlParser) (name : Bytes) (n : Nat) : AgentDsmlParser :=
  { p with current := { name := some name }, parsePos := p.parsePos + n }

/-- After the opening tag of a parameter. -/
def AgentDsmlParser.entered (p : AgentDsmlParser) (name : Bytes) (isString : Bool) (n : Nat) : AgentDsmlParser :=
  { p with
    paramName := some name
    paramIsString := isString
    parsePos := p.parsePos + n
    paramValueStart := p.parsePos + n
    state := .paramValue }

/-- After the closing tag of a parameter. -/
def AgentDsmlParser.left (p : AgentDsmlParser) (value : Bytes) (n : Nat) : AgentDsmlParser :=
  { p with
    current := p.current.addArg (p.paramName.getD []) value p.paramIsString
    paramName := none
    parsePos := p.paramValueStart + value.length + n
    state := .structural }

theorem openTag_invoke {p : AgentDsmlParser} {a name : Bytes} (h62 : 62 ∉ a) (h0 : 0 ∉ a)
    (ht : OpeningTag (utf8 "invoke") (a ++ [62])) (hname : Attribute (a ++ [62]) (utf8 "name") name) :
    agentDsmlOpenTag p (a ++ [62]) = p.invoked name (a ++ [62]).length := by
  rw [agentDsmlOpenTag, if_pos ((openTagIs_iff tagName_invoke h62 h0).mpr ht), parseAttr_iff.mpr hname]
  rfl

theorem openTag_parameter {p : AgentDsmlParser} {a name : Bytes} {isString : Bool} (h62 : 62 ∉ a) (h0 : 0 ∉ a)
    (ht : OpeningTag (utf8 "parameter") (a ++ [62])) (hname : Attribute (a ++ [62]) (utf8 "name") name)
    (hstring : isString = true ↔ Attribute (a ++ [62]) (utf8 "string") (utf8 "true")) :
    agentDsmlOpenTag p (a ++ [62]) = p.entered name isString (a ++ [62]).length := by
  have hno : agentDsmlOpenTagIs (a ++ [62]) (utf8 "invoke") = false := by
    obtain ⟨attrs, h, -⟩ := ht
    rw [h, agentDsmlOpenTagIs]
    simp only [List.append_assoc]
    rfl
  have hflag : decide (agentParseAttr (a ++ [62]) (utf8 "string") = some (utf8 "true")) = isString := by
    rw [Bool.eq_iff_iff, decide_eq_true_iff, parseAttr_iff, hstring]
  rw [agentDsmlOpenTag, hno, if_neg Bool.false_ne_true, if_pos ((openTagIs_iff tagName_parameter h62 h0).mpr ht),
    parseAttr_iff.mpr hname, hflag]
  rfl

theorem openTag_cases (p : AgentDsmlParser) {a : Bytes} (h62 : 62 ∉ a) (h0 : 0 ∉ a) :
    (∃ name, OpeningTag (utf8 "invoke") (a ++ [62]) ∧ Attribute (a ++ [62]) (utf8 "name") name) ∨
    (∃ name isString, OpeningTag (utf8 "parameter") (a ++ [62]) ∧ Attribute (a ++ [62]) (utf8 "name") name ∧
      (isString = true ↔ Attribute (a ++ [62]) (utf8 "string") (utf8 "true"))) ∨
    (agentDsmlOpenTag p (a ++ [62])).state = .error := by
  by_cases hi : agentDsmlOpenTagIs (a ++ [62]) (utf8 "invoke") = true
  · cases hname : agentParseAttr (a ++ [62]) (utf8 "name") with
    | some name => exact .inl ⟨name, (openTagIs_iff tagName_invoke h62 h0).mp hi, parseAttr_iff.mp hname⟩
    | none =>
      refine .inr (.inr ?_)
      rw [agentDsmlOpenTag, if_pos hi, hname]
      rfl
  · by_cases hpar : agentDsmlOpenTagIs (a ++ [62]) (utf8 "parameter") = true
    · cases hname : agentParseAttr (a ++ [62]) (utf8 "name") with
      | some name =>
        refine .inr (.inl ⟨name, decide (agentParseAttr (a ++ [62]) (utf8 "string") = some (utf8 "true")),
          (openTagIs_iff tagName_parameter h62 h0).mp hpar, parseAttr_iff.mp hname, ?_⟩)
        rw [decide_eq_true_iff, parseAttr_iff]
      | none =>
        refine .inr (.inr ?_)
        rw [agentDsmlOpenTag, if_neg hi, if_pos hpar, hname]
        rfl
    · refine .inr (.inr ?_)
      rw [agentDsmlOpenTag, if_neg hi, if_neg hpar]
      rfl

theorem round_value {p q : AgentDsmlParser} {s : Bytes} (hp : p.state = .paramValue) :
    agentDsmlRound p s = some q ↔
      ∃ v t r, s = v ++ t ++ r ∧ 0 ∉ v ∧ NoClosing (utf8 "parameter") v ∧ ClosingTag (utf8 "parameter") t ∧
        q = p.left v t.length := by
  unfold agentDsmlRound
  split
  · constructor
    · intro h
      obtain ⟨⟨i, n⟩, hf, h⟩ := Option.bind_eq_some_iff.mp h
      obtain ⟨v, t, r, rfl, rfl, rfl, ht, h0, hno⟩ := findCloseTag_sound hf
      obtain rfl := Option.some.inj h
      refine ⟨v, t, r, rfl, h0, findCloseTag_noClosing tagName_parameter hno, ht, ?_⟩
      rw [AgentDsmlParser.left, List.append_assoc, List.take_left]
    · rintro ⟨v, t, r, rfl, h0, hno, ht, rfl⟩
      rw [findCloseTag_complete tagName_parameter ht r h0 hno]
      dsimp only [Option.bind_eq_bind, Option.bind_some]
      rw [AgentDsmlParser.left, List.append_assoc, List.take_left]
  · next h => exact absurd (hp.symm.trans h) (by decide)
  · next h _ => exact absurd hp h

theorem round_other {p : AgentDsmlParser} (hs : p.state ≠ .structural) (hv : p.state ≠ .paramValue) (s : Bytes) :
    agentDsmlRound p s = none := by
  unfold agentDsmlRound
  split
  · next h => exact absurd h hv
  · next h => exact absurd h hs
  · rfl

/-! ## The parser as a reader -/

/-- The parser without the bytes it has seen. -/
def AgentDsmlParser.core (p : AgentDsmlParser) : AgentDsmlParser := { p with raw := [] }

theorem core_eq {p : AgentDsmlParser} (h : p.raw = []) : p.core = p := by rw [AgentDsmlParser.core, ← h]

theorem openTag_raw (p : AgentDsmlParser) (tag : Bytes) : (agentDsmlOpenTag p tag).raw = p.raw := by
  unfold agentDsmlOpenTag agentDsmlSetError
  split
  · dsimp only
    split <;> rfl
  · split
    · dsimp only
      split <;> rfl
    · rfl

theorem openTag_core (p : AgentDsmlParser) (tag : Bytes) : agentDsmlOpenTag p.core tag = (agentDsmlOpenTag p tag).core := by
  unfold agentDsmlOpenTag
  split
  · dsimp only
    split <;> rfl
  · split
    · dsimp only
      split <;> rfl
    · rfl

theorem round_core (p : AgentDsmlParser) (s : Bytes) :
    agentDsmlRound p.core s = (agentDsmlRound p s).map AgentDsmlParser.core := by
  unfold agentDsmlRound
  rw [show p.core.state = p.state from rfl]
  split
  · cases agentDsmlFindCloseTag (utf8 "parameter") s <;> rfl
  · cases s with
    | nil => rfl
    | cons c s =>
      dsimp only
      split
      · rfl
      · split
        · rfl
        · split
          · rfl
          · rw [Option.map_map]
            exact congrArg (Option.map · _) (funext fun r => openTag_core p _)
  · rfl

/-- A round takes something, or it ends the block in error. -/
theorem round_cursor {p q : AgentDsmlParser} {s : Bytes} (h : agentDsmlRound p s = some q) :
    q.raw = p.raw ∧ q.state ≠ .search ∧ s ≠ [] ∧
      (q.state = .error ∨ (p.cursor < q.cursor ∧ q.cursor ≤ p.cursor + s.length)) := by
  by_cases hs : p.state = .structural
  · have hcur : p.cursor = p.parsePos := if_neg (by rw [hs]; decide)
    cases (round_iff hs).mp h with
    | blank hc => exact ⟨rfl, fun h => by simp [hs] at h, List.cons_ne_nil _ _, .inr (by simp [AgentDsmlParser.cursor, hs])⟩
    | finish ht =>
      have := ht.length_pos tagName_toolCalls
      refine ⟨rfl, by simp, fun h => ?_, .inr ?_⟩
      · rw [(List.append_eq_nil_iff.mp h).1] at this
        exact absurd this (Nat.lt_irrefl 0)
      · simp [AgentDsmlParser.cursor, hs]
        omega
    | close ht =>
      have := ht.length_pos tagName_invoke
      refine ⟨rfl, fun h => by simp [AgentDsmlParser.push, hs] at h, fun h => ?_, .inr ?_⟩
      · rw [(List.append_eq_nil_iff.mp h).1] at this
        exact absurd this (Nat.lt_irrefl 0)
      · simp [AgentDsmlParser.cursor, AgentDsmlParser.push, hs]
        omega
    | other h62 h0 hsp ht ht' =>
      next a r =>
      rcases openTag_cases p h62 h0 with ⟨name, hopen, hname⟩ | ⟨name, isString, hopen, hname, hstring⟩ | herr
      · rw [openTag_invoke h62 h0 hopen hname]
        refine ⟨rfl, by simp [AgentDsmlParser.invoked, hs], by simp, .inr ?_⟩
        simp [AgentDsmlParser.cursor, AgentDsmlParser.invoked, hs]
      · rw [openTag_parameter h62 h0 hopen hname hstring]
        refine ⟨rfl, by simp [AgentDsmlParser.entered], by simp, .inr ?_⟩
        simp [AgentDsmlParser.cursor, AgentDsmlParser.entered, hs]
      · exact ⟨openTag_raw p _, by simp [herr], by simp, .inl herr⟩
  · by_cases hv : p.state = .paramValue
    · obtain ⟨v, t, r, rfl, -, -, ht, rfl⟩ := (round_value hv).mp h
      have := ht.length_pos tagName_parameter
      refine ⟨rfl, by simp [AgentDsmlParser.left], fun h => ?_, .inr ?_⟩
      · rw [(List.append_eq_nil_iff.mp (List.append_eq_nil_iff.mp h).1).2] at this
        exact absurd this (Nat.lt_irrefl 0)
      · simp [AgentDsmlParser.cursor, AgentDsmlParser.left, hv]
        omega
    · rw [round_other hs hv] at h
      cases h

/-- What a round takes does not change when more text follows. -/
theorem round_more {p q : AgentDsmlParser} {s : Bytes} (h : agentDsmlRound p s = some q) (x : Bytes) :
    agentDsmlRound p (s ++ x) = some q := by
  by_cases hs : p.state = .structural
  · rw [round_iff hs] at h ⊢
    cases h with
    | blank hc => exact .blank hc
    | finish ht =>
      rw [List.append_assoc]
      exact .finish ht
    | close ht =>
      rw [List.append_assoc]
      exact .close ht
    | other h62 h0 hsp ht ht' =>
      rw [List.append_assoc, List.cons_append]
      exact .other h62 h0 hsp ht ht'
  · by_cases hv : p.state = .paramValue
    · rw [round_value hv] at h ⊢
      obtain ⟨v, t, r, rfl, h0, hno, ht, rfl⟩ := h
      exact ⟨v, t, r ++ x, by rw [List.append_assoc (v ++ t)], h0, hno, ht, rfl⟩
    · rw [round_other hs hv] at h
      cases h

/-- The bytes a round took; an error leaves the parser where it stood. -/
def AgentDsmlParser.taken (p q : AgentDsmlParser) : Nat := if q.state = .error then 1 else q.cursor - p.cursor

def dsmlTake (p : AgentDsmlParser) (s : Bytes) : Option (AgentDsmlParser × Nat) :=
  if p.state = .search then s.head?.map fun c => ((agentDsmlSearch p c).core, 1)
  else (agentDsmlRound p s).map fun q => (q.core, p.taken q)

def dsmlReader : Reader AgentDsmlParser UInt8 where
  take := dsmlTake
  pos := by
    intro p s q n h
    rw [dsmlTake] at h
    split at h
    · obtain ⟨c, hc, h⟩ := Option.map_eq_some_iff.mp h
      obtain ⟨-, rfl⟩ := Prod.mk.inj h
      cases s with
      | nil => cases hc
      | cons d s => simp
    · obtain ⟨q', hq, h⟩ := Option.map_eq_some_iff.mp h
      obtain ⟨-, rfl⟩ := Prod.mk.inj h
      obtain ⟨-, -, hne, herr | hcur⟩ := round_cursor hq
      · rw [AgentDsmlParser.taken, if_pos herr]
        exact ⟨Nat.one_pos, List.length_pos_of_ne_nil hne⟩
      · have := List.length_pos_of_ne_nil hne
        rw [AgentDsmlParser.taken]
        split <;> omega
  more := by
    intro p s q n h x
    rw [dsmlTake] at h ⊢
    split at h
    · next hp =>
      cases s with
      | nil => cases h
      | cons d s => rwa [if_pos hp]
    · next hp =>
      obtain ⟨q', hq, h⟩ := Option.map_eq_some_iff.mp h
      rw [if_neg hp, round_more hq]
      exact congrArg some h

/-- The block is over, well or not. -/
def AgentDsmlParser.Ended (p : AgentDsmlParser) : Prop := p.state = .done ∨ p.state = .error

/-- A parser and the reader at the same place: the reader has unread what the parser
    has behind its cursor. -/
def Fed (p : AgentDsmlParser) (c : AgentDsmlParser × Bytes) : Prop :=
  p.core = c.1 ∧ (p.state = .search ∧ p.raw = [] ∧ c.2 = [] ∨ p.Ended ∨
    p.state ≠ .search ∧ p.cursor ≤ p.raw.length ∧ c.2 = p.raw.drop p.cursor)

theorem round_ended {p : AgentDsmlParser} (h : p.Ended) (s : Bytes) : agentDsmlRound p s = none :=
  round_other (by rcases h with h | h <;> simp [h]) (by rcases h with h | h <;> simp [h]) s

theorem take_live {p : AgentDsmlParser} (h : p.state ≠ .search) (s : Bytes) :
    dsmlReader.take p.core s = (agentDsmlRound p s).map fun q => (q.core, p.taken q) := by
  show dsmlTake p.core s = _
  rw [dsmlTake, if_neg (show p.core.state ≠ .search from h), round_core, Option.map_map]
  rfl

theorem ended_not_search {p : AgentDsmlParser} (h : p.Ended) : p.state ≠ .search := by
  rcases h with h | h <;> simp [h]

theorem rounds_ended {p : AgentDsmlParser} (h : p.Ended) (n : Nat) : agentDsmlRounds n p = p := by
  cases n with
  | zero => rfl
  | succ n => rw [agentDsmlRounds, round_ended h]

theorem go_ended {p : AgentDsmlParser} (h : p.Ended) (n : Nat) (s : Bytes) : dsmlReader.go n p.core s = (p.core, s) := by
  cases n with
  | zero => rfl
  | succ n => rw [Reader.go, take_live (ended_not_search h), round_ended h, Option.map_none]

/-- The rounds of a parse are what the reader takes. -/
theorem rounds_fed : ∀ (n : Nat) {p : AgentDsmlParser}, p.state ≠ .search → p.cursor ≤ p.raw.length →
    Fed (agentDsmlRounds n p) (dsmlReader.go n p.core (p.raw.drop p.cursor))
  | 0, p, hp, hcur => ⟨rfl, .inr (.inr ⟨hp, hcur, rfl⟩)⟩
  | n + 1, p, hp, hcur => by
    rw [agentDsmlRounds, Reader.go, take_live hp]
    cases h : agentDsmlRound p (p.raw.drop p.cursor) with
    | none => exact ⟨rfl, .inr (.inr ⟨hp, hcur, rfl⟩)⟩
    | some q =>
      obtain ⟨hraw, hsearch, -, herr | ⟨hlt, hle⟩⟩ := round_cursor h
      · have hended : q.Ended := .inr herr
        rw [Option.map_some]
        dsimp only
        rw [rounds_ended hended, go_ended hended]
        exact ⟨rfl, .inr (.inl hended)⟩
      · rw [List.length_drop] at hle
        by_cases herr : q.state = .error
        · have hended : q.Ended := .inr herr
          rw [Option.map_some]
          dsimp only
          rw [rounds_ended hended, go_ended hended]
          exact ⟨rfl, .inr (.inl hended)⟩
        · have hcut : (p.raw.drop p.cursor).drop (p.taken q) = q.raw.drop q.cursor := by
            rw [AgentDsmlParser.taken, if_neg herr, List.drop_drop, hraw]
            congr 1
            omega
          rw [Option.map_some]
          dsimp only
          rw [hcut]
          exact rounds_fed n hsearch (by rw [hraw]; omega)

/-- After a byte of the search: the block is open, or the search goes on. -/
theorem search_cases (p : AgentDsmlParser) (x : UInt8) :
    agentDsmlSearch p x =
      if dsmlToolCallsStart <:+ tailPush 64 p.searchTail x then agentDsmlStart { p with searchTail := [] }
      else { p with searchTail := tailPush 64 p.searchTail x } := by
  unfold agentDsmlSearch
  simp only [List.isSuffixOf_iff_suffix]
  rfl

theorem byte_fed {p : AgentDsmlParser} {c : AgentDsmlParser × Bytes} (h : Fed p c) (x : UInt8) :
    Fed (agentDsmlByte p x) (dsmlReader.feed c [x]) := by
  obtain ⟨q, u⟩ := c
  obtain ⟨rfl, ⟨hs, hraw, rfl⟩ | hended | ⟨hs, hcur, rfl⟩⟩ := h
  · have htake : dsmlReader.take p.core [x] = some ((agentDsmlSearch p.core x).core, 1) := by
      show dsmlTake p.core [x] = _
      rw [dsmlTake, if_pos (show p.core.state = .search from hs)]
      rfl
    rw [Reader.feed, List.nil_append, Reader.run_some htake, List.drop_one, List.tail_cons, core_eq hraw, agentDsmlByte,
      if_pos hs]
    refine ⟨rfl, ?_⟩
    rw [search_cases]
    split
    · refine .inr (.inr ⟨by simp [agentDsmlStart], ?_, ?_⟩)
      · simp [agentDsmlStart, AgentDsmlParser.cursor]
      · simp [agentDsmlStart, AgentDsmlParser.cursor, hraw, Reader.run, Reader.go]
    · exact .inl ⟨hs, hraw, rfl⟩
  · have hended' : ({ p with raw := p.raw ++ [x] } : AgentDsmlParser).Ended := hended
    rw [agentDsmlByte, if_neg (ended_not_search hended), agentDsmlParse, rounds_ended hended', Reader.feed, Reader.run,
      go_ended hended]
    exact ⟨rfl, .inr (.inl hended')⟩
  · have hrun := rounds_fed (p.raw ++ [x]).length (p := { p with raw := p.raw ++ [x] }) hs
      (show p.cursor ≤ (p.raw ++ [x]).length by rw [List.length_append]; omega)
    have hcut : (p.raw ++ [x]).drop p.cursor = p.raw.drop p.cursor ++ [x] := List.drop_append_of_le_length hcur
    rw [agentDsmlByte, if_neg hs, agentDsmlParse, Reader.feed, Reader.run, ← hcut, Reader.go_fuel (Nat.le_refl _)]
    · exact hrun
    · rw [List.length_drop]
      exact Nat.sub_le _ _

theorem feed_fed {p : AgentDsmlParser} {c : AgentDsmlParser × Bytes} (h : Fed p c) (hc : dsmlReader.take c.1 c.2 = none)
    (s : Bytes) : Fed (agentDsmlFeed p s) (dsmlReader.feed c s) := by
  have hbytes : ∀ (s : Bytes) {p : AgentDsmlParser} {c : AgentDsmlParser × Bytes}, Fed p c →
      Fed (s.foldl agentDsmlByte p) ((s.map ([·])).foldl dsmlReader.feed c) := by
    intro s
    induction s with
    | nil => exact fun h => h
    | cons x s ih => exact fun h => ih (byte_fed h x)
  rw [agentDsmlFeed]
  split
  · next hended =>
    obtain ⟨hcore, -⟩ := h
    refine ⟨?_, .inr (.inl hended)⟩
    rw [Reader.feed, Reader.run, ← hcore, go_ended hended]
  · have hpieces := Reader.feed_pieces c (s.map ([·])) hc
    rw [← List.flatMap_def, List.flatMap_singleton'] at hpieces
    rw [Reader.feed, ← hpieces]
    exact hbytes s h

/-- However the bytes are cut, the parser comes where the reader comes on all of them. -/
theorem feeds_read (pieces : List Bytes) :
    (pieces.foldl agentDsmlFeed {}).core = (dsmlReader.run {} pieces.flatten).1 := by
  have h : ∀ (pieces : List Bytes) {p : AgentDsmlParser} {c : AgentDsmlParser × Bytes}, Fed p c →
      dsmlReader.take c.1 c.2 = none → Fed (pieces.foldl agentDsmlFeed p) (pieces.foldl dsmlReader.feed c) := by
    intro pieces
    induction pieces with
    | nil => exact fun h _ => h
    | cons s pieces ih => exact fun h hc => ih (feed_fed h hc s) (Reader.take_run _ _)
  have hnone : dsmlReader.take ({} : AgentDsmlParser) [] = none := Reader.take_nil _
  have hfed := h pieces (p := {}) (c := ({}, [])) ⟨rfl, .inl ⟨rfl, rfl, rfl⟩⟩ hnone
  have hrun := Reader.feed_pieces (({}, []) : AgentDsmlParser × Bytes) pieces hnone
  rw [List.nil_append] at hrun
  rw [hrun] at hfed
  exact hfed.1

/-! ## What is written -/

/-- What stands between the start of a block and its end. -/
inductive DsmlElement where
  | invoke (name : Bytes)
  | parameter (name value : Bytes) (isString : Bool)
  | invokeEnd

/-- The spelling of elements, with blanks between them. -/
inductive Spells : List DsmlElement → Bytes → Prop
  | nil : Spells [] []
  | blank {els : List DsmlElement} {c : UInt8} {s : Bytes} : tagSpace c = true → Spells els s → Spells els (c :: s)
  | invoke {els : List DsmlElement} {t s name : Bytes} : OpeningTag (utf8 "invoke") t → Attribute t (utf8 "name") name →
      Spells els s → Spells (.invoke name :: els) (t ++ s)
  | parameter {els : List DsmlElement} {t v e s name : Bytes} {isString : Bool} : OpeningTag (utf8 "parameter") t →
      Attribute t (utf8 "name") name → (isString = true ↔ Attribute t (utf8 "string") (utf8 "true")) →
      0 ∉ v → NoClosing (utf8 "parameter") v → ClosingTag (utf8 "parameter") e → Spells els s →
      Spells (.parameter name v isString :: els) (t ++ v ++ e ++ s)
  | invokeEnd {els : List DsmlElement} {t s : Bytes} : ClosingTag (utf8 "invoke") t → Spells els s →
      Spells (.invokeEnd :: els) (t ++ s)

/-- The calls so far and the open one. A call that is opened while another is open
    takes its place; parameters outside of a call are lost with it. -/
def DsmlElement.apply : List AgentDsmlCall × AgentDsmlOpenCall → DsmlElement → List AgentDsmlCall × AgentDsmlOpenCall
  | (calls, _), .invoke name => (calls, { name := some name })
  | (calls, call), .parameter name value isString => (calls, call.addArg name value isString)
  | c, .invokeEnd => pushCall c

/-- The calls of a block; its end closes an open call. -/
def callsOf (els : List DsmlElement) : List AgentDsmlCall := (pushCall (els.foldl DsmlElement.apply ([], {}))).1

def AgentDsmlParser.sofar (p : AgentDsmlParser) : List AgentDsmlCall × AgentDsmlOpenCall := (p.calls, p.current)

theorem run_round {p q : AgentDsmlParser} {s : Bytes} (hp : p.state ≠ .search) (hraw : p.raw = [])
    (h : agentDsmlRound p s = some q) : dsmlReader.run p s = dsmlReader.run q.core (s.drop (p.taken q)) := by
  refine Reader.run_some ?_
  rw [← core_eq hraw, take_live hp, h]
  rfl

/-- An opening tag is no closing tag. -/
theorem openingTag_head {name t : Bytes} (hn : TagName name) (h : OpeningTag name t) :
    ∃ a, t = a ++ [62] ∧ 62 ∉ a ∧ 0 ∉ a ∧ (∀ c ∈ a.head?, tagSpace c = false) ∧
      ¬ClosingTag (utf8 "tool_calls") (a ++ [62]) ∧ ¬ClosingTag (utf8 "invoke") (a ++ [62]) := by
  obtain ⟨attrs, rfl, -, h62, h0⟩ := h
  obtain ⟨l, hl, h62', h0'⟩ : ∃ l, utf8 "<｜DSML｜" = 60 :: 239 :: l ∧ 62 ∉ l ∧ 0 ∉ l :=
    ⟨(utf8 "<｜DSML｜").drop 2, rfl, by decide +kernel, by decide +kernel⟩
  have hhead : openTagHead name ++ attrs = 60 :: 239 :: (l ++ name ++ attrs) := by
    rw [openTagHead, hl]
    simp
  have hclosing : ∀ name', ¬ClosingTag name' (60 :: 239 :: (l ++ name ++ attrs) ++ [62]) := by
    rintro name' ⟨w, bar, w', ht, -⟩
    obtain ⟨k, hk⟩ : ∃ k, closeTagHead name' = 60 :: 47 :: k := ⟨(utf8 "</｜DSML｜").drop 2 ++ name', rfl⟩
    rw [hk] at ht
    simp at ht
  refine ⟨openTagHead name ++ attrs, rfl, ?_, ?_, ?_, ?_, ?_⟩
  · rw [hhead]
    simp [h62, h62', hn.2.1]
  · rw [hhead]
    simp [h0, h0', hn.2.2]
  · rw [hhead]
    intro c hc
    obtain rfl : 60 = c := Option.some.inj hc
    rfl
  · rw [hhead]
    exact hclosing _
  · rw [hhead]
    exact hclosing _

/-- Between tags, with no bytes kept. -/
structure AgentDsmlParser.Between (p : AgentDsmlParser) : Prop where
  state : p.state = .structural
  raw : p.raw = []

theorem AgentDsmlParser.Between.step {p q : AgentDsmlParser} {t r : Bytes} (hp : p.Between)
    (h : agentDsmlRound p (t ++ r) = some q) (hq : q.state ≠ .error) (htaken : q.cursor = p.cursor + t.length) :
    dsmlReader.run p (t ++ r) = dsmlReader.run q r := by
  have hraw : q.raw = [] := (round_cursor h).1.trans hp.raw
  have hn : p.taken q = t.length := by
    rw [AgentDsmlParser.taken, if_neg hq, htaken, Nat.add_sub_cancel_left]
  rw [run_round (by rw [hp.state]; decide) hp.raw h, hn, List.drop_left, AgentDsmlParser.core, ← hraw]

/-- The value of a parameter and its closing tag. -/
theorem value_step {p : AgentDsmlParser} {v e r : Bytes} (hp : p.state = .paramValue) (hraw : p.raw = []) (hv : 0 ∉ v)
    (hno : NoClosing (utf8 "parameter") v) (he : ClosingTag (utf8 "parameter") e) :
    dsmlReader.run p (v ++ e ++ r) = dsmlReader.run (p.left v e.length) r := by
  have hround := (round_value hp).mpr ⟨v, e, r, rfl, hv, hno, he, rfl⟩
  have htaken : p.taken (p.left v e.length) = (v ++ e).length := by
    simp [AgentDsmlParser.taken, AgentDsmlParser.cursor, AgentDsmlParser.left, hp]
    omega
  rw [run_round (by rw [hp]; decide) hraw hround, htaken, List.drop_left, AgentDsmlParser.core,
    show p.left v e.length = { p.left v e.length with raw := p.raw } from rfl, hraw]

/-- Elements are read as what they say. -/
theorem spells_read {els : List DsmlElement} {s : Bytes} (h : Spells els s) : ∀ {p : AgentDsmlParser} (r : Bytes),
    p.Between → ∃ q : AgentDsmlParser, q.Between ∧ q.sofar = els.foldl DsmlElement.apply p.sofar ∧
      dsmlReader.run p (s ++ r) = dsmlReader.run q r := by
  induction h with
  | nil => exact fun r hp => ⟨_, hp, rfl, rfl⟩
  | @blank els c s hc _ ih =>
    intro p r hp
    have hround := (round_iff hp.state).mpr (@Round.blank p c (s ++ r) hc)
    obtain ⟨q, hq, hsofar, hrun⟩ := ih r (p := { p with parsePos := p.parsePos + 1 }) ⟨hp.state, hp.raw⟩
    refine ⟨q, hq, hsofar, ?_⟩
    rw [← hrun]
    exact hp.step (t := [c]) hround (by simp [hp.state]) (by simp [AgentDsmlParser.cursor, hp.state])
  | @invoke els t s name ht hname _ ih =>
    intro p r hp
    obtain ⟨a, rfl, h62, h0, hsp, hne, hne'⟩ := openingTag_head tagName_invoke ht
    have hround := (round_iff hp.state).mpr (@Round.other p a (s ++ r) h62 h0 hsp hne hne')
    rw [openTag_invoke h62 h0 ht hname] at hround
    obtain ⟨q, hq, hsofar, hrun⟩ := ih r (p := p.invoked name (a ++ [62]).length) ⟨hp.state, hp.raw⟩
    refine ⟨q, hq, hsofar, ?_⟩
    rw [← hrun, List.append_assoc]
    exact hp.step (by simpa using hround) (by simp [AgentDsmlParser.invoked, hp.state])
      (by simp [AgentDsmlParser.cursor, AgentDsmlParser.invoked, hp.state])
  | @parameter els t v e s name isString ht hname hstring hv hno he _ ih =>
    intro p r hp
    obtain ⟨a, rfl, h62, h0, hsp, hne, hne'⟩ := openingTag_head tagName_parameter ht
    have hround := (round_iff hp.state).mpr (@Round.other p a (v ++ e ++ (s ++ r)) h62 h0 hsp hne hne')
    rw [openTag_parameter h62 h0 ht hname hstring] at hround
    obtain ⟨q, hq, hsofar, hrun⟩ := ih r
      (p := (p.entered name isString (a ++ [62]).length).left v e.length) ⟨rfl, hp.raw⟩
    refine ⟨q, hq, hsofar, ?_⟩
    rw [show a ++ 62 :: (v ++ e ++ (s ++ r)) = a ++ [62] ++ (v ++ e ++ (s ++ r)) by simp] at hround
    have hopen := hp.step hround
      (by simp [AgentDsmlParser.entered]) (by simp [AgentDsmlParser.cursor, AgentDsmlParser.entered, hp.state])
    rw [← hrun, show a ++ [62] ++ v ++ e ++ s ++ r = a ++ [62] ++ (v ++ e ++ (s ++ r)) by simp, hopen]
    exact @value_step (p.entered name isString (a ++ [62]).length) v e (s ++ r) rfl hp.raw hv hno he
  | @invokeEnd els t s ht _ ih =>
    intro p r hp
    have hround := (round_iff hp.state).mpr (@Round.close p t (s ++ r) ht)
    obtain ⟨q, hq, hsofar, hrun⟩ := ih r (p := { p.push with parsePos := p.parsePos + t.length }) ⟨hp.state, hp.raw⟩
    refine ⟨q, hq, hsofar, ?_⟩
    rw [← hrun, List.append_assoc]
    exact hp.step hround (by simp [AgentDsmlParser.push, hp.state])
      (by simp [AgentDsmlParser.cursor, AgentDsmlParser.push, hp.state])

theorem run_stuck {p : AgentDsmlParser} {s : Bytes} (hp : p.state ≠ .search) (hraw : p.raw = [])
    (h : agentDsmlRound p s = none) : dsmlReader.run p s = (p, s) := by
  refine Reader.run_none ?_
  rw [← core_eq hraw, take_live hp, h]
  rfl

/-- A block that ended well was written by the grammar. -/
theorem done_spells {p : AgentDsmlParser} {s : Bytes} (hp : p.Between) (hdone : (dsmlReader.run p s).1.state = .done) :
    ∃ els body e rest, s = body ++ e ++ rest ∧ Spells els body ∧ ClosingTag (utf8 "tool_calls") e ∧
      (dsmlReader.run p s).1.calls = (pushCall (els.foldl DsmlElement.apply p.sofar)).1 := by
  induction hn : s.length using Nat.strongRecOn generalizing p s with
  | ind n ih =>
    have hsearch : p.state ≠ .search := by
      rw [hp.state]
      decide
    cases h : agentDsmlRound p s with
    | none =>
      rw [run_stuck hsearch hp.raw h, hp.state] at hdone
      cases hdone
    | some q =>
      cases (round_iff hp.state).mp h with
      | @blank c r hc =>
        have hrun := hp.step (t := [c]) h (by simp [hp.state]) (by simp [AgentDsmlParser.cursor, hp.state])
        rw [List.singleton_append] at hrun
        have hq : ({ p with parsePos := p.parsePos + 1 } : AgentDsmlParser).Between := ⟨hp.state, hp.raw⟩
        rw [hrun] at hdone ⊢
        obtain ⟨els, body, e, rest, rfl, hspells, he, hcalls⟩ := ih r.length (by rw [← hn]; simp) hq hdone rfl
        exact ⟨els, c :: body, e, rest, rfl, .blank hc hspells, he, hcalls⟩
      | @finish t r ht =>
        have hrun := hp.step h (by simp) (by simp [AgentDsmlParser.cursor, hp.state])
        have hended : dsmlReader.run { p.push with parsePos := p.parsePos + t.length, state := .done } r =
            ({ p.push with parsePos := p.parsePos + t.length, state := .done }, r) :=
          run_stuck (by simp) hp.raw (round_ended (.inl rfl) _)
        rw [hended] at hrun
        exact ⟨[], [], t, r, rfl, .nil, ht, by rw [hrun]; rfl⟩
      | @close t r ht =>
        have hrun := hp.step h (by simp [AgentDsmlParser.push, hp.state])
          (by simp [AgentDsmlParser.cursor, AgentDsmlParser.push, hp.state])
        have hlt := ht.length_pos tagName_invoke
        have hq : ({ p.push with parsePos := p.parsePos + t.length } : AgentDsmlParser).Between := ⟨hp.state, hp.raw⟩
        rw [hrun] at hdone ⊢
        obtain ⟨els, body, e, rest, rfl, hspells, he, hcalls⟩ :=
          ih r.length (by rw [← hn, List.length_append]; omega) hq hdone rfl
        exact ⟨.invokeEnd :: els, t ++ body, e, rest, by simp, .invokeEnd ht hspells, he, hcalls⟩
      | @other a r h62 h0 hsp hne hne' =>
        have hcut : a ++ 62 :: r = (a ++ [62]) ++ r := by simp
        rw [hcut] at h hdone ⊢
        rcases openTag_cases p h62 h0 with ⟨name, ht, hname⟩ | ⟨name, isString, ht, hname, hstring⟩ | herr
        · rw [openTag_invoke h62 h0 ht hname] at h
          have hrun := hp.step h (by simp [AgentDsmlParser.invoked, hp.state])
            (by simp [AgentDsmlParser.cursor, AgentDsmlParser.invoked, hp.state])
          have hq : (p.invoked name (a ++ [62]).length).Between := ⟨hp.state, hp.raw⟩
          rw [hrun] at hdone ⊢
          obtain ⟨els, body, e, rest, rfl, hspells, he, hcalls⟩ := ih r.length (by rw [← hn]; simp; omega) hq hdone rfl
          exact ⟨.invoke name :: els, a ++ [62] ++ body, e, rest, by simp, .invoke ht hname hspells, he, hcalls⟩
        · rw [openTag_parameter h62 h0 ht hname hstring] at h
          have hrun := hp.step h (by simp [AgentDsmlParser.entered])
            (by simp [AgentDsmlParser.cursor, AgentDsmlParser.entered, hp.state])
          rw [hrun] at hdone ⊢
          -- the value and its closing tag are a round more
          cases hv : agentDsmlRound (p.entered name isString (a ++ [62]).length) r with
          | none =>
            have hstuck := @run_stuck (p.entered name isString (a ++ [62]).length) r (by simp [AgentDsmlParser.entered])
              hp.raw hv
            rw [hstuck] at hdone
            cases hdone
          | some q =>
            obtain ⟨v, t, k, rfl, hv0, hno, hclose, rfl⟩ := (round_value rfl).mp hv
            have hq : ((p.entered name isString (a ++ [62]).length).left v t.length).Between := ⟨rfl, hp.raw⟩
            have hvalue := @value_step (p.entered name isString (a ++ [62]).length) v t k rfl hp.raw hv0 hno hclose
            rw [hvalue] at hdone ⊢
            obtain ⟨els, body, e, rest, rfl, hspells, he, hcalls⟩ := ih k.length (by rw [← hn]; simp; omega) hq hdone rfl
            exact ⟨.parameter name v isString :: els, a ++ [62] ++ v ++ t ++ body, e, rest, by simp,
              .parameter ht hname hstring hv0 hno hclose hspells, he, hcalls⟩
        · have hraw := (openTag_raw p (a ++ [62])).trans hp.raw
          have hstop := run_round hsearch hp.raw h
          rw [hstop, core_eq hraw, run_stuck (by simp [herr]) hraw (round_ended (.inr herr) _), herr] at hdone
          cases hdone

/-! ## From the first byte -/

/-- The parser right behind the start of a block. -/
def startedParser : AgentDsmlParser := { state := .structural, parsePos := dsmlToolCallsStart.length }

/-- A block is read up to its end and no further. -/
theorem block_read {els : List DsmlElement} {body e : Bytes} (h : Spells els body) (he : ClosingTag (utf8 "tool_calls") e)
    (rest : Bytes) {p : AgentDsmlParser} (hp : p.Between) :
    ∃ q : AgentDsmlParser, dsmlReader.run p (body ++ e ++ rest) = (q, rest) ∧ q.state = .done ∧
      q.calls = (pushCall (els.foldl DsmlElement.apply p.sofar)).1 := by
  obtain ⟨q, hq, hsofar, hread⟩ := spells_read h (e ++ rest) hp
  have hround := (round_iff hq.state).mpr (@Round.finish q e rest he)
  have hlast := hq.step hround (by simp) (by simp [AgentDsmlParser.cursor, hq.state])
  have hended : dsmlReader.run { q.push with parsePos := q.parsePos + e.length, state := .done } rest =
      ({ q.push with parsePos := q.parsePos + e.length, state := .done }, rest) :=
    run_stuck (by simp) hq.raw (round_ended (.inl rfl) _)
  rw [List.append_assoc, hread, hlast, hended, ← hsofar]
  exact ⟨_, rfl, rfl, rfl⟩

/-- The tail is what was seen, or the last `n` bytes of it. -/
def Tail (n : Nat) (seen tail : Bytes) : Prop := tail <:+ seen ∧ (tail = seen ∨ tail.length = n)

theorem Tail.push {n : Nat} (hn : 0 < n) {seen tail : Bytes} (h : Tail n seen tail) (x : UInt8) :
    Tail n (seen ++ [x]) (tailPush n tail x) := by
  obtain ⟨⟨a, rfl⟩, hlen⟩ := h
  rw [tailPush]
  split
  · next hfull =>
    cases tail with
    | nil => exact absurd hfull (Nat.ne_of_lt hn)
    | cons c tail =>
      refine ⟨⟨a ++ [c], by simp⟩, .inr ?_⟩
      simpa using hfull
  · next hfull =>
    refine ⟨⟨a, by simp⟩, .inl ?_⟩
    rcases hlen with hall | hlen
    · rw [← hall]
    · exact absurd hlen hfull

/-- A tail long enough for a text ends with it when what was seen does. -/
theorem Tail.ends_iff {n : Nat} {seen tail t : Bytes} (h : Tail n seen tail) (ht : t.length ≤ n) :
    t <:+ tail ↔ t <:+ seen := by
  refine ⟨fun hs => hs.trans h.1, fun hs => ?_⟩
  rcases h.2 with rfl | hlen
  · exact hs
  · exact List.suffix_of_suffix_length_le hs h.1 (hlen ▸ ht)

/-- The search opens the first block there is. -/
theorem search_read : ∀ (b : Bytes) {seen tail : Bytes}, Tail 64 seen tail → ¬dsmlToolCallsStart <:+: seen →
    (∃ pre rest, seen ++ b = pre ++ dsmlToolCallsStart ++ rest ∧ ¬dsmlToolCallsStart <:+: pre ∧
      dsmlReader.run { searchTail := tail } b = dsmlReader.run startedParser rest) ∨
    ¬dsmlToolCallsStart <:+: seen ++ b ∧ (dsmlReader.run { searchTail := tail } b).1.state = .search
  | [], seen, tail, _, hno => .inr ⟨by rwa [List.append_nil], rfl⟩
  | x :: b, seen, tail, htail, hno => by
    have htail' := htail.push (by decide) x
    have hends := htail'.ends_iff (t := dsmlToolCallsStart) (by decide +kernel)
    have htake : dsmlReader.take { searchTail := tail } (x :: b) =
        some ((agentDsmlSearch { searchTail := tail } x).core, 1) := rfl
    rw [Reader.run_some htake, List.drop_one, List.tail_cons, search_cases, show seen ++ x :: b = (seen ++ [x]) ++ b by simp]
    by_cases hstart : dsmlToolCallsStart <:+ tailPush 64 tail x
    · rw [if_pos hstart]
      obtain ⟨pre, hpre⟩ := hends.mp hstart
      refine .inl ⟨pre, b, by rw [hpre], fun hin => hno ?_, rfl⟩
      -- what is in front of this start was seen before
      have hfront : pre <+: seen := by
        obtain ⟨l, y, hl⟩ : ∃ l y, dsmlToolCallsStart = l ++ [y] := ⟨openTagHead (utf8 "tool_calls"), 62, rfl⟩
        rw [hl, ← List.append_assoc] at hpre
        exact ⟨l, (List.append_inj' hpre rfl).1⟩
      exact hin.trans hfront.isInfix
    · rw [if_neg hstart]
      refine search_read b htail' fun hin => ?_
      rcases List.infix_concat_iff.mp hin with hsuf | hin
      · exact hstart (hends.mpr hsuf)
      · exact hno hin

/-- The place of the first start is one place. -/
theorem first_start {a b r s : Bytes} (ha : ¬dsmlToolCallsStart <:+: a) (hb : ¬dsmlToolCallsStart <:+: b)
    (h : a ++ dsmlToolCallsStart ++ r = b ++ dsmlToolCallsStart ++ s) : r = s := by
  obtain ⟨l, hl, hno⟩ : ∃ l, dsmlToolCallsStart = 60 :: l ∧ 60 ∉ l :=
    ⟨dsmlToolCallsStart.tail, rfl, by decide +kernel⟩
  rw [hl, List.append_assoc, List.append_assoc] at h
  rw [hl] at ha hb
  have hfirst := strstr_append hno r a ha
  rw [h, strstr_append hno s b hb] at hfirst
  obtain ⟨-, hrest⟩ := Prod.mk.inj (Option.some.inj hfirst)
  exact (List.append_cancel_left hrest).symm

/-- **The parser accepts what the grammar writes.** However the text is cut into pieces,
    it ends well with these calls exactly when, behind the first start of a block, the
    text is elements that make these calls and an end of the block. -/
theorem dsml_stream_exact (pieces : List Bytes) (calls : List AgentDsmlCall) :
    (pieces.foldl agentDsmlFeed {}).state = .done ∧ (pieces.foldl agentDsmlFeed {}).calls = calls ↔
      ∃ pre els body e rest, pieces.flatten = pre ++ dsmlToolCallsStart ++ (body ++ e ++ rest) ∧
        ¬dsmlToolCallsStart <:+: pre ∧ Spells els body ∧ ClosingTag (utf8 "tool_calls") e ∧ callsOf els = calls := by
  have hcore := feeds_read pieces
  have hstate : (pieces.foldl agentDsmlFeed {}).state = (dsmlReader.run {} pieces.flatten).1.state := by
    rw [← hcore]
    rfl
  have hcalls : (pieces.foldl agentDsmlFeed {}).calls = (dsmlReader.run {} pieces.flatten).1.calls := by
    rw [← hcore]
    rfl
  have hsearch := @search_read pieces.flatten [] [] ⟨List.suffix_refl _, .inl rfl⟩
    (fun h => absurd (List.infix_nil.mp h) (by decide +kernel))
  have hstarted : startedParser.Between := ⟨rfl, rfl⟩
  rw [hstate, hcalls]
  rcases hsearch with ⟨pre, text, htext, hpre, hrun⟩ | ⟨hno, hrun⟩
  · rw [List.nil_append] at htext
    change dsmlReader.run {} pieces.flatten = _ at hrun
    rw [hrun]
    constructor
    · rintro ⟨hdone, rfl⟩
      obtain ⟨els, body, e, rest, rfl, hspells, he, hcalls⟩ := done_spells hstarted hdone
      exact ⟨pre, els, body, e, rest, htext, hpre, hspells, he, hcalls.symm⟩
    · rintro ⟨pre', els, body, e, rest, htext', hpre', hspells, he, rfl⟩
      obtain rfl := first_start hpre hpre' (htext.symm.trans htext')
      obtain ⟨q, hread, hdone, hcalls⟩ := block_read hspells he rest hstarted
      rw [hread]
      exact ⟨hdone, hcalls⟩
  · change (dsmlReader.run {} pieces.flatten).1.state = _ at hrun
    rw [hrun]
    constructor
    · rintro ⟨hdone, -⟩
      cases hdone
    · rintro ⟨pre', els, body, e, rest, htext', -⟩
      refine absurd ?_ hno
      rw [List.nil_append, htext']
      exact ⟨pre', _, rfl⟩

end Ds4.Agent
