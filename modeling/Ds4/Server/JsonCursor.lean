import Ds4.Triple
import Ds4.Server.JsonStandard

/- The JSON skipper as it walks: with the cursor, its reads, its loops and its calls.

   Correspondence (C ↔ Lean):
     `json_ws`, `json_lit`, `json_u16`        ↔ `walkWs`, `walkLit`, `walkU16`
     `json_string`, `json_number`             ↔ `walkString`, `walkNumber`
     `json_skip_array_depth`, `json_skip_object_depth`, `json_skip_value_depth`
                                              ↔ `walkArray`, `walkObject`, `walkValueDepth`
     `json_skip_value`                        ↔ `walkValue`
   A read behind the terminator, a loop without an end and a call below the nesting
   limit are faults of a walk. The value of a string is that of `jsonString`; the
   skipper frees it, and a walk does not make it.

   What is proved.
     1. From any place of a C string no walk has a fault, and it ends where the
        reader of the rest of the string (`jsonSkipValue`) does (`walkValue_runs`).
     2. A value of the standard within the nesting limit is skipped, cut out and
        minified exactly, whatever may follow it (`jsonSkip_exact`). -/
namespace Ds4.Server
open Bytes

/-! ## A cursor into a C string -/

/-- What a walk over a C string must not do: read behind the terminator, loop without an
    end, or call itself too deeply. -/
inductive WalkFault
  | overrun
  | stuck
  | deep

/-- `const char **p`, by the place it points to. -/
abbrev Walk := EStateM WalkFault Nat

section
variable (text : Bytes)

/-- `(*p)[i]`: the terminator is the last byte there is. -/
def peek (i : Nat) : Walk UInt8 := do
  let p ← get
  if p + i ≤ text.length then return (text.drop (p + i)).headD 0 else throw .overrun

def walkStep (n : Nat) : Walk Unit := modify (· + n)

/-- A loop of the source runs at most this often. -/
def rounds : Nat := text.length + 1

def walkWs : Nat → Walk Unit
  | 0 => throw .stuck
  | fuel + 1 => do
    let c ← peek text 0
    if c ≠ 0 ∧ isSpace c then do
      walkStep 1
      walkWs fuel
    else return ()

/-- `strncmp`, which stops at the first difference. -/
def walkMatches : Nat → Bytes → Walk Bool
  | _, [] => return true
  | i, c :: lit => do
    let x ← peek text i
    if x = c then walkMatches (i + 1) lit else return false

def walkLit (lit : Bytes) : Walk Bool := do
  let ok ← walkMatches text 0 lit
  if ok then do
    walkStep lit.length
    return true
  else return false

def walkHex : Nat → Nat → UInt32 → Walk (Option UInt32)
  | 0, _, cp => return some cp
  | n + 1, i, cp => do
    let c ← peek text i
    match jsonHex c with
    | none => return none
    | some h => walkHex n (i + 1) (cp <<< 4 ||| h)

def walkU16 : Walk (Option UInt32) := do
  let c ← peek text 0
  if c ≠ 92 then return none
  else do
    let c ← peek text 1
    if c ≠ 117 then return none
    else do
      let cp ← walkHex text 4 2 0
      if cp.isSome then do
        walkStep 6
        return cp
      else return none

/-- The low surrogate behind a high one: the cursor goes back where there is none. -/
def walkLow (cp : UInt32) : Walk Unit := do
  if 0xd800 ≤ cp ∧ cp ≤ 0xdbff then do
    let lowStart ← get
    let lo ← walkU16 text
    if (lo.map isLow).getD false then return () else set lowStart
  else return ()

/-- The loop of `json_string` and its closing quote. -/
def walkStringBody : Nat → Walk Bool
  | 0 => throw .stuck
  | fuel + 1 => do
    let c ← peek text 0
    if c = 0 ∨ c = 34 then
      if c = 34 then do
        walkStep 1
        return true
      else return false
    else do
      walkStep 1
      if c ≠ 92 then walkStringBody fuel
      else do
        let e ← peek text 0
        walkStep 1
        if e = 117 then do
          modify (· - 2)
          let cp ← walkU16 text
          match cp with
          | none => return false
          | some cp => do
            walkLow text cp
            walkStringBody fuel
        else if (jsonSimple e).isSome then walkStringBody fuel
        else return false

def walkString : Walk Bool := do
  walkWs text (rounds text)
  let c ← peek text 0
  if c ≠ 34 then return false
  else do
    walkStep 1
    walkStringBody text (rounds text)

/-- `strtod` is the C library's, and reads the string the cursor points to. -/
def walkNumber : Walk Bool := do
  walkWs text (rounds text)
  let _ ← peek text 0
  let p ← get
  match strtod (text.drop p) with
  | none => return false
  | some (_, r) => do
    set (text.length - r.length)
    return true

def walkItems (item : Walk Bool) (close : UInt8) : Nat → Walk Bool
  | 0 => throw .stuck
  | fuel + 1 => do
    let ok ← item
    if !ok then return false
    else do
      walkWs text (rounds text)
      let c ← peek text 0
      if c = close then do
        walkStep 1
        return true
      else if c ≠ 44 then return false
      else do
        walkStep 1
        walkItems item close fuel

def walkSeq (item : Walk Bool) (opening close : UInt8) (depth : Nat) : Walk Bool := do
  if depth ≥ jsonMaxNesting then return false
  else do
    walkWs text (rounds text)
    let c ← peek text 0
    if c ≠ opening then return false
    else do
      walkStep 1
      walkWs text (rounds text)
      let c ← peek text 0
      if c = close then do
        walkStep 1
        return true
      else walkItems text item close (rounds text)

def walkArray (value : Walk Bool) (depth : Nat) : Walk Bool := walkSeq text value 91 93 depth

def walkMember (value : Walk Bool) : Walk Bool := do
  let ok ← walkString text
  if !ok then return false
  else do
    walkWs text (rounds text)
    let c ← peek text 0
    if c ≠ 58 then return false
    else do
      walkStep 1
      value

def walkObject (value : Walk Bool) (depth : Nat) : Walk Bool := walkSeq text (walkMember text value) 123 125 depth

def walkAny (array object : Walk Bool) : Walk Bool := do
  walkWs text (rounds text)
  let c ← peek text 0
  if c = 34 then walkString text
  else if c = 123 then object
  else if c = 91 then array
  else do
    let t ← walkLit text (utf8 "true")
    if t then return true
    else do
      let f ← walkLit text (utf8 "false")
      if f then return true
      else do
        let n ← walkLit text (utf8 "null")
        if n then return true else walkNumber text

/-- `json_skip_value_depth`; `levels` is how often it may still call itself, whatever its guard says. -/
def walkValueDepth : Nat → Nat → Walk Bool
  | 0, depth => walkAny text (walkArray text (throw .deep) depth) (walkObject text (throw .deep) depth)
  | levels + 1, depth =>
    walkAny text (walkArray text (walkValueDepth levels (depth + 1)) depth)
      (walkObject text (walkValueDepth levels (depth + 1)) depth)

/-- `json_skip_value`, with room for `JSON_MAX_NESTING` calls below it. -/
def walkValue : Walk Bool := walkValueDepth text jsonMaxNesting 0

end

/-! ## What a walk does -/

section
variable {text : Bytes}

/-- The cursor stands at the rest `s` of the string. -/
def At (text s : Bytes) (p : Nat) : Prop := p ≤ text.length ∧ text.drop p = s

/-- No fault is the end of a walk. -/
abbrev Walks (text : Bytes) {α : Type} (s : Bytes) (x : Walk α) (post : α → Nat → Prop) : Prop :=
  Triple (At text s) x post fun _ => False

theorem at_length {s : Bytes} {p : Nat} (h : At text s p) : s.length = text.length - p := by
  rw [← h.2, List.length_drop]

/-- A look ahead leaves the cursor where it is, whatever else is known of it. -/
theorem peek_keeps {P : Nat → Prop} {s : Bytes} (hP : ∀ p, P p → At text s p) {i : Nat} (hi : i ≤ s.length) :
    Triple P (peek text i) (fun c p => c = (s.drop i).headD 0 ∧ P p) fun _ => False := by
  refine Triple.run fun p hPp => ?_
  have hp := hP p hPp
  refine ⟨(text.drop (p + i)).headD 0, p, ?_, ?_, hPp⟩
  · have hlen := at_length hp
    have hle := hp.1
    have hin : p + i ≤ text.length := by omega
    have hif : peek text i p =
        (if p + i ≤ text.length then pure ((text.drop (p + i)).headD 0) else throw .overrun : Walk UInt8) p := rfl
    rw [hif, if_pos hin]
    rfl
  · rw [← hp.2, List.drop_drop]

theorem peek_walks {s : Bytes} {i : Nat} (hi : i ≤ s.length) :
    Walks text s (peek text i) fun c p => c = (s.drop i).headD 0 ∧ At text s p :=
  peek_keeps (fun _ hp => hp) hi

theorem walkStep_walks {s : Bytes} {n : Nat} (hn : n ≤ s.length) :
    Walks text s (walkStep n) fun _ p => At text (s.drop n) p := by
  refine Triple.run fun p hp => ⟨(), p + n, rfl, ?_, ?_⟩
  · have hlen := at_length hp
    have hle := hp.1
    omega
  · rw [← hp.2, List.drop_drop]

theorem walkWs_walks : ∀ (fuel : Nat) {s : Bytes}, s.length < fuel →
    Walks text s (walkWs text fuel) fun _ p => At text (skipWs s) p
  | 0, s, h => absurd h (Nat.not_lt_zero _)
  | fuel + 1, s, h => by
    rw [walkWs]
    refine Triple.bind (peek_walks (Nat.zero_le _)) fun c => Triple.assume fun hc => ?_
    cases s with
    | nil =>
      obtain rfl : c = 0 := hc
      exact Triple.ite (fun h => absurd rfl h.1) fun _ => Triple.pure fun p hp => hp
    | cons d s =>
      obtain rfl : c = d := hc
      refine Triple.ite (fun hspace => ?_) fun hspace => Triple.pure fun p hp => ?_
      · refine Triple.bind (walkStep_walks (Nat.succ_le_succ (Nat.zero_le _))) fun _ => ?_
        have hskip : skipWs (c :: s) = skipWs s := List.dropWhile_cons_of_pos hspace.2
        rw [hskip]
        exact walkWs_walks fuel (by simpa using h)
      · have hc : isSpace c = false := by
          cases hs : isSpace c with
          | false => rfl
          | true =>
            refine absurd ⟨?_, hs⟩ hspace
            rintro rfl
            cases hs
        rwa [skipWs_cons hc]

theorem walkMatches_walks : ∀ (lit : Bytes) (i : Nat) {s : Bytes}, 0 ∉ lit → i ≤ s.length →
    Walks text s (walkMatches text i lit) fun ok p => ok = startsWith lit (s.drop i) ∧ At text s p
  | [], i, s, _, _ => Triple.pure fun p hp => ⟨by rw [startsWith_nil], hp⟩
  | c :: lit, i, s, hlit, hi => by
    rw [walkMatches]
    refine Triple.bind (peek_walks hi) fun x => Triple.assume fun hx => ?_
    cases hs : s.drop i with
    | nil =>
      rw [hs] at hx
      refine Triple.ite (fun hxc => ?_) fun _ => Triple.pure fun p hp => ⟨by rw [startsWith_cons_nil], hp⟩
      obtain rfl : x = 0 := hx
      exact absurd (hxc ▸ List.mem_cons_self) hlit
    | cons d r =>
      rw [hs] at hx
      obtain rfl : x = d := hx
      have hr : s.drop (i + 1) = r := by rw [← List.drop_drop, hs, List.drop_one, List.tail_cons]
      have hlen := congrArg List.length hs
      rw [List.length_drop, List.length_cons] at hlen
      rw [startsWith_cons_cons]
      refine Triple.ite (fun hxc => ?_) fun hxc => Triple.pure fun p hp => ⟨?_, hp⟩
      · have ih := walkMatches_walks lit (i + 1) (fun h => hlit (List.mem_cons_of_mem c h))
          (show i + 1 ≤ s.length by omega)
        rw [hr] at ih
        rw [hxc, beq_self_eq_true, Bool.true_and]
        exact ih
      · rw [beq_eq_false_iff_ne.mpr (Ne.symm hxc), Bool.false_and]

/-- What comes of a reading of the rest of the string. -/
def Ends (text : Bytes) : Option Bytes → Bool → Nat → Prop
  | some r, ok, p => ok = true ∧ At text r p
  | none, ok, _ => ok = false

theorem walkLit_walks {lit s : Bytes} (hlit : 0 ∉ lit) : Walks text s (walkLit text lit) fun ok p =>
    if startsWith lit s then ok = true ∧ At text (s.drop lit.length) p else ok = false ∧ At text s p := by
  rw [walkLit]
  refine Triple.bind (walkMatches_walks lit 0 hlit (Nat.zero_le _)) fun ok => Triple.assume fun hok => ?_
  rw [List.drop_zero] at hok
  refine Triple.ite (fun h => ?_) fun h => Triple.pure fun p hp => ?_
  · simp only [← hok, if_pos h]
    obtain ⟨r, rfl⟩ := startsWith_iff.mp (hok.symm.trans h)
    refine Triple.bind (walkStep_walks (by rw [List.length_append]; omega)) fun _ => ?_
    exact Triple.pure fun p hp => ⟨rfl, hp⟩
  · rw [← hok, if_neg h]
    exact ⟨rfl, hp⟩

/-! ### Strings -/

def hexRun : Nat → UInt32 → Bytes → Option UInt32
  | 0, cp, _ => some cp
  | _ + 1, _, [] => none
  | n + 1, cp, c :: s => (jsonHex c).bind fun h => hexRun n (cp <<< 4 ||| h) s

theorem walkHex_walks : ∀ (n i : Nat) (cp : UInt32) {s : Bytes}, i ≤ s.length →
    Walks text s (walkHex text n i cp) fun out p => out = hexRun n cp (s.drop i) ∧ At text s p
  | 0, i, cp, s, _ => Triple.pure fun p hp => ⟨rfl, hp⟩
  | n + 1, i, cp, s, hi => by
    rw [walkHex]
    refine Triple.bind (peek_walks hi) fun x => Triple.assume fun hx => ?_
    cases hs : s.drop i with
    | nil =>
      rw [hs] at hx
      obtain rfl : x = 0 := hx
      exact Triple.pure fun p hp => ⟨rfl, hp⟩
    | cons d r =>
      rw [hs] at hx
      obtain rfl : x = d := hx
      have hr : s.drop (i + 1) = r := by rw [← List.drop_drop, hs, List.drop_one, List.tail_cons]
      have hlen := congrArg List.length hs
      rw [List.length_drop, List.length_cons] at hlen
      rw [hexRun]
      cases hh : jsonHex x with
      | none => exact Triple.pure fun p hp => ⟨rfl, hp⟩
      | some h =>
        have ih := walkHex_walks n (i + 1) (cp <<< 4 ||| h) (show i + 1 ≤ s.length by omega)
        rw [hr] at ih
        exact ih

theorem hexRun_length : ∀ {n : Nat} {cp v : UInt32} {s : Bytes}, hexRun n cp s = some v → n ≤ s.length
  | 0, _, _, _, _ => Nat.zero_le _
  | n + 1, _, _, [], h => by cases h
  | n + 1, cp, v, c :: s, h => by
    obtain ⟨x, -, hx⟩ := Option.bind_eq_some_iff.mp h
    exact Nat.succ_le_succ (hexRun_length hx)

theorem jsonU16_hexRun (t : Bytes) : jsonU16 (92 :: 117 :: t) = (hexRun 4 0 t).map fun v => (v, t.drop 4) := by
  cases t with
  | nil => rfl
  | cons a t =>
    cases t with
    | nil => cases ha : jsonHex a <;> simp [jsonU16, hexRun, ha]
    | cons b t =>
      cases t with
      | nil => cases ha : jsonHex a <;> cases hb : jsonHex b <;> simp [jsonU16, hexRun, ha, hb]
      | cons c t =>
        cases t with
        | nil =>
          cases ha : jsonHex a <;> cases hb : jsonHex b <;> cases hc : jsonHex c <;>
            simp [jsonU16, hexRun, ha, hb, hc]
        | cons d t =>
          cases ha : jsonHex a <;> cases hb : jsonHex b <;> cases hc : jsonHex c <;> cases hd : jsonHex d <;>
            simp [jsonU16, jsonHex4, hexRun, ha, hb, hc, hd]

theorem jsonU16_none {s : Bytes} (h : ∀ t, s ≠ 92 :: 117 :: t) : jsonU16 s = none := by
  rw [jsonU16]
  intro a b c d t hs
  exact h _ hs

/-- A code unit was read, or the cursor stays. -/
theorem walkU16_walks (s : Bytes) : Walks text s (walkU16 text) fun out p =>
    (∃ v r, jsonU16 s = some (v, r) ∧ out = some v ∧ At text r p) ∨ (jsonU16 s = none ∧ out = none ∧ At text s p) := by
  rw [walkU16]
  refine Triple.bind (peek_walks (Nat.zero_le _)) fun c => Triple.assume fun hc => ?_
  refine Triple.ite (fun hne => ?_) fun heq => ?_
  · refine Triple.pure fun p hp => Or.inr ⟨jsonU16_none ?_, rfl, hp⟩
    rintro t rfl
    exact hne hc
  obtain rfl : c = 92 := by simpa using heq
  cases s with
  | nil => cases hc
  | cons d s =>
    obtain rfl : 92 = d := hc
    refine Triple.bind (peek_walks (Nat.succ_le_succ (Nat.zero_le _))) fun c => Triple.assume fun hc => ?_
    refine Triple.ite (fun hne => ?_) fun heq => ?_
    · refine Triple.pure fun p hp => Or.inr ⟨jsonU16_none ?_, rfl, hp⟩
      intro t ht
      obtain rfl := List.tail_eq_of_cons_eq ht
      exact hne hc
    obtain rfl : c = 117 := by simpa using heq
    cases s with
    | nil => cases hc
    | cons d t =>
      obtain rfl : 117 = d := hc
      refine Triple.bind (walkHex_walks 4 2 0 (by simp)) fun out => Triple.assume fun hout => ?_
      have hread := jsonU16_hexRun t
      rw [show (92 :: 117 :: t).drop 2 = t from rfl] at hout
      rw [← hout] at hread
      cases out with
      | none => exact Triple.pure fun p hp => Or.inr ⟨hread, rfl, hp⟩
      | some v =>
        have hlen : 6 ≤ (92 :: 117 :: t : Bytes).length := by
          have := hexRun_length hout.symm
          simp only [List.length_cons]
          omega
        refine Triple.bind (walkStep_walks hlen) fun _ => Triple.pure fun p hp => Or.inl ⟨v, t.drop 4, hread, rfl, hp⟩

/-- The cursor stands `n` bytes behind the start of `s`, which may be behind the terminator. -/
def Behind (text : Bytes) (n : Nat) (s : Bytes) (p : Nat) : Prop := n ≤ p ∧ At text s (p - n)

theorem Behind.at {n : Nat} {s : Bytes} (hn : n ≤ s.length) {p : Nat} (h : Behind text n s p) : At text (s.drop n) p := by
  obtain ⟨hle, hp⟩ := h
  have hlen := at_length hp
  have hbound := hp.1
  refine ⟨by omega, ?_⟩
  rw [← hp.2, List.drop_drop, Nat.sub_add_cancel hle]

theorem walkStep_behind {n k : Nat} {s : Bytes} :
    Triple (Behind text k s) (walkStep n) (fun _ p => Behind text (k + n) s p) fun _ => False :=
  Triple.run fun p hp => ⟨(), p + n, rfl, by have := hp.1; omega, by
    have hsub : p + n - (k + n) = p - k := by omega
    rw [hsub]
    exact hp.2⟩

theorem walkStep_from {n : Nat} {s : Bytes} :
    Walks text s (walkStep n) fun _ p => Behind text n s p :=
  Triple.run fun p hp => ⟨(), p + n, rfl, Nat.le_add_left n p, by rwa [Nat.add_sub_cancel]⟩

theorem walkLow_walks (cp : UInt32) (s : Bytes) :
    Walks text s (walkLow text cp) fun _ p => At text (jsonPair cp s).2 p := by
  rw [walkLow, jsonPair]
  refine Triple.ite (fun hhigh => ?_) fun hhigh => ?_
  · refine Triple.bind (Q := fun start p => At text s start ∧ At text s p) (Triple.get fun p hp => ⟨hp, hp⟩) fun start => ?_
    refine Triple.assume fun hstart => Triple.bind (walkU16_walks s) fun lo => ?_
    have hback : ∀ P : Nat → Prop, Triple P (set start : Walk Unit) (fun _ p => At text s p) fun _ => False :=
      fun P => Triple.run fun p _ => ⟨(), start, rfl, hstart⟩
    rw [if_pos hhigh]
    cases hu : jsonU16 s with
    | none =>
      refine Triple.ite (fun hlow => ?_) fun _ => hback _
      refine Triple.pure fun p hp => ?_
      rcases hp with ⟨v, r, h, -, -⟩ | ⟨-, rfl, -⟩
      · cases h
      · cases hlow
    | some out =>
      obtain ⟨v, r⟩ := out
      refine Triple.pre (R := fun p => lo = some v ∧ At text r p) (Triple.assume fun hlo => ?_) fun p hp => ?_
      · subst hlo
        by_cases hlow : isLow v = true
        · have hif : ((some v).map isLow).getD false = true := hlow
          rw [if_pos hif]
          exact Triple.pure fun p hp => by simpa only [if_pos hlow] using hp
        · have hif : ¬((some v).map isLow).getD false = true := hlow
          rw [if_neg hif]
          simp only [if_neg hlow]
          exact hback _
      · rcases hp with ⟨v', r', h, hlo, hp⟩ | ⟨h, -⟩
        · obtain ⟨rfl, rfl⟩ := Prod.mk.inj (Option.some.inj h)
          exact ⟨hlo, hp⟩
        · cases h
  · rw [if_neg hhigh]
    exact Triple.pure fun p hp => hp

theorem jsonStringBody_snd (fuel : Nat) {c : UInt8} {s b r : Bytes} (hc : c ≠ 34) (h : jsonChar (c :: s) = some (b, r)) :
    (jsonStringBody (fuel + 1) (c :: s)).map Prod.snd = (jsonStringBody fuel r).map Prod.snd := by
  rw [jsonStringBody, if_neg hc, h]
  cases hr : jsonStringBody fuel r <;> simp [hr]

theorem jsonStringBody_stop (fuel : Nat) {c : UInt8} {s : Bytes} (hc : c ≠ 34) (h : jsonChar (c :: s) = none) :
    (jsonStringBody (fuel + 1) (c :: s)).map Prod.snd = none := by
  rw [jsonStringBody, if_neg hc, h]
  rfl

/-- The loop of `json_string` goes where `jsonStringBody` goes. -/
theorem walkStringBody_walks (h0 : 0 ∉ text) : ∀ (fuel : Nat) {fuel' : Nat} {s : Bytes}, (∀ c ∈ s, c ≠ 0) →
    s.length < fuel → s.length ≤ fuel' →
    Walks text s (walkStringBody text fuel) (Ends text ((jsonStringBody fuel' s).map Prod.snd))
  | 0, _, _, _, h, _ => absurd h (Nat.not_lt_zero _)
  | fuel + 1, fuel', s, hs0, hfuel, hfuel' => by
    rw [walkStringBody]
    refine Triple.bind (peek_walks (Nat.zero_le _)) fun x => Triple.assume fun hx => ?_
    cases s with
    | nil =>
      obtain rfl : x = 0 := hx
      refine Triple.ite (fun _ => Triple.ite (fun h => by cases h) fun _ => ?_) fun h => absurd (Or.inl rfl) h
      exact Triple.pure fun p hp => by cases fuel' <;> rfl
    | cons c s =>
      obtain rfl : x = c := hx
      obtain ⟨n, rfl⟩ := Nat.exists_eq_succ_of_ne_zero (n := fuel') (by simp at hfuel'; omega)
      simp only [List.length_cons, Nat.add_lt_add_iff_right, Nat.succ_eq_add_one, Nat.add_le_add_iff_right] at hfuel hfuel'
      have hx0 : x ≠ 0 := hs0 x List.mem_cons_self
      have hstep : 1 ≤ (x :: s).length := Nat.succ_le_succ (Nat.zero_le _)
      by_cases hquote : x = 34
      · subst hquote
        rw [if_pos (Or.inr rfl), if_pos rfl]
        refine Triple.bind (walkStep_walks hstep) fun _ => Triple.pure fun p hp => ?_
        rw [Nat.succ_eq_add_one, jsonStringBody, if_pos rfl]
        exact ⟨rfl, hp⟩
      rw [if_neg (not_or.mpr ⟨hx0, hquote⟩)]
      by_cases hslash : x = 92
      swap
      · have hchar : jsonChar (x :: s) = some ([x], s) := if_pos hslash
        rw [jsonStringBody_snd n hquote hchar]
        refine Triple.bind (walkStep_walks hstep) fun _ => ?_
        rw [if_pos hslash]
        exact walkStringBody_walks h0 fuel (fun c hc => hs0 c (List.mem_cons_of_mem x hc)) hfuel hfuel'
      subst hslash
      refine Triple.bind walkStep_from fun _ => ?_
      rw [if_neg (by simp)]
      refine Triple.bind (peek_keeps (fun p hp => hp.at hstep) (Nat.zero_le _)) fun e => Triple.assume fun he => ?_
      refine Triple.bind walkStep_behind fun _ => ?_
      cases s with
      | nil =>
        obtain rfl : e = 0 := he
        rw [if_neg (by decide), if_neg (by decide), jsonStringBody_stop n hquote rfl]
        exact Triple.pure fun p hp => rfl
      | cons d s =>
        obtain rfl : e = d := he
        have hs : s.length < fuel := by simp at hfuel; omega
        have hs' : s.length ≤ n := by simp at hfuel'; omega
        have hzero : ∀ c ∈ s, c ≠ 0 := fun c hc => hs0 c (List.mem_cons_of_mem _ (List.mem_cons_of_mem _ hc))
        by_cases hu : e = 117
        · subst hu
          rw [if_pos rfl]
          have hback : Triple (Behind text (1 + 1) (92 :: 117 :: s)) (modify (· - 2) : Walk Unit)
              (fun _ p => At text (92 :: 117 :: s) p) fun _ => False :=
            Triple.run fun p hp => ⟨(), p - 2, rfl, hp.2⟩
          refine Triple.bind hback fun _ => Triple.bind (walkU16_walks _) fun cp => ?_
          have hchar : jsonChar (92 :: 117 :: s) =
              (jsonU16 (92 :: 117 :: s)).map fun v => jsonPair v.1 v.2 := rfl
          cases hread : jsonU16 (92 :: 117 :: s) with
          | none =>
            rw [hread] at hchar
            rw [jsonStringBody_stop n hquote hchar]
            refine Triple.pre (R := fun p => cp = none) (fun p hcp => ?_) fun p hp => ?_
            · subst hcp
              rfl
            · rcases hp with ⟨v, r, h, -, -⟩ | ⟨-, hcp, -⟩
              · cases h
              · exact hcp
          | some out =>
            obtain ⟨v, r⟩ := out
            rw [hread, Option.map_some] at hchar
            rw [jsonStringBody_snd n hquote hchar]
            refine Triple.pre (R := fun p => cp = some v ∧ At text r p) (Triple.assume fun hcp => ?_) fun p hp => ?_
            · subst hcp
              obtain ⟨t, ht, heq⟩ := jsonU16_sound hread
              obtain ⟨t', -, heq'⟩ := jsonPair_sound v r
              have hall : 92 :: 117 :: s = t ++ (t' ++ (jsonPair v r).2) := by rw [← heq', heq]
              have hlen := congrArg List.length hall
              have htpos : 1 ≤ t.length := by cases ht <;> simp
              simp only [List.length_cons, List.length_append] at hlen hfuel hfuel'
              refine Triple.bind (walkLow_walks v r) fun _ =>
                walkStringBody_walks h0 fuel (fun c hc => hs0 c ?_) (by omega) (by omega)
              rw [hall]
              exact List.mem_append_right t (List.mem_append_right t' hc)
            · rcases hp with ⟨v', r', h, hcp, hp⟩ | ⟨h, -⟩
              · obtain ⟨rfl, rfl⟩ := Prod.mk.inj (Option.some.inj h)
                exact ⟨hcp, hp⟩
              · cases h
        · have hat : ∀ p, Behind text (1 + 1) (92 :: e :: s) p → At text s p := fun p hp =>
            hp.at (show 2 ≤ (92 :: e :: s : Bytes).length by simp)
          rw [if_neg hu]
          cases hsimple : jsonSimple e with
          | none =>
            have hchar : jsonChar (92 :: e :: s) = none := by
              rw [jsonChar, if_neg (by simp), if_neg hu, hsimple]
              rfl
            rw [jsonStringBody_stop n hquote hchar, if_neg (by simp)]
            exact Triple.pure fun p hp => rfl
          | some b =>
            have hchar : jsonChar (92 :: e :: s) = some ([b], s) := by
              rw [jsonChar, if_neg (by simp), if_neg hu, hsimple]
              rfl
            rw [jsonStringBody_snd n hquote hchar, if_pos Option.isSome_some]
            exact Triple.pre (walkStringBody_walks h0 fuel hzero hs hs') hat

/-! ### Values -/

/-- A walk from any rest of the string goes where `f` goes. -/
def Runs (text : Bytes) (x : Walk Bool) (f : Bytes → Option Bytes) : Prop :=
  ∀ s, Walks text s x (Ends text (f s))

/-- What is ahead of the cursor is part of the string. -/
theorem walks_known (h0 : 0 ∉ text) {α : Type} {s : Bytes} {x : Walk α} {post : α → Nat → Prop}
    (hx : (∀ c ∈ s, c ≠ 0) → s.length < rounds text → Walks text s x post) :
    Walks text s x post := by
  intro p hp
  refine hx (fun c hc hzero => h0 ?_) ?_ p hp
  · rw [← hzero]
    rw [← hp.2] at hc
    exact List.mem_of_mem_drop hc
  · have := at_length hp
    rw [rounds]
    omega

theorem skipWs_length_le (s : Bytes) : (skipWs s).length ≤ s.length := (List.dropWhile_sublist _).length_le

section
variable (h0 : 0 ∉ text)
include h0

/-- The blanks before a reading. -/
theorem walkWs_then {α : Type} {s : Bytes} {x : Walk α} {post : α → Nat → Prop}
    (hx : Walks text (skipWs s) x post) :
    Walks text s (walkWs text (rounds text) >>= fun _ => x) post :=
  walks_known h0 fun _ hlen => Triple.bind (walkWs_walks _ hlen) fun _ => hx

theorem walkString_runs : Runs text (walkString text) fun s => (jsonString s).map Prod.snd := by
  intro s
  show Walks text s (walkString text) (Ends text ((jsonString s).map Prod.snd))
  have hnone : (∀ r, skipWs s ≠ 34 :: r) → jsonString s = none := by
    intro hs
    cases hj : jsonString s with
    | none => rfl
    | some out =>
      obtain ⟨t, -, hskip⟩ := jsonString_sound (show jsonString s = some (out.1, out.2) from hj)
      exact absurd hskip (hs _)
  rw [walkString]
  refine walkWs_then h0 (walks_known h0 fun hzero hlen => ?_)
  refine Triple.bind (peek_walks (Nat.zero_le _)) fun c => Triple.assume fun hc => ?_
  cases hs : skipWs s with
  | nil =>
    rw [hs] at hc
    obtain rfl : c = 0 := hc
    rw [hnone (by rw [hs]; exact fun r h => by cases h)]
    exact Triple.pure fun p hp => rfl
  | cons d r =>
    rw [hs] at hc hzero hlen
    obtain rfl : c = d := hc
    refine Triple.ite (fun hne => ?_) fun heq => ?_
    · rw [hnone (by rw [hs]; exact fun r' h => hne (List.head_eq_of_cons_eq h))]
      exact Triple.pure fun p hp => rfl
    · obtain rfl : c = 34 := by simpa using heq
      have hbody : (jsonString s).map Prod.snd = (jsonStringBody r.length r).map Prod.snd := by
        have hskip : jsonString s = jsonString (skipWs s) := by rw [jsonString, jsonString, skipWs_skipWs]
        rw [hskip, hs, jsonString_quote, Option.map_map]
        rfl
      rw [hbody]
      refine Triple.bind (walkStep_walks (Nat.succ_le_succ (Nat.zero_le _))) fun _ => ?_
      simp only [List.length_cons] at hlen
      exact walkStringBody_walks h0 _ (s := r) (fun c hc => hzero c (List.mem_cons_of_mem _ hc)) (by omega) le_rfl

theorem walkNumber_runs : Runs text (walkNumber text) jsonNumber := by
  intro s
  rw [walkNumber]
  refine walkWs_then h0 (Triple.bind (peek_walks (Nat.zero_le _)) fun _ => Triple.assume fun _ => ?_)
  refine Triple.bind (Q := fun q p => At text (skipWs s) q) (Triple.get fun p hp => hp) fun q => ?_
  refine Triple.pre (R := fun p => At text (skipWs s) q ∧ True) (Triple.assume fun hq => ?_) fun p hp => ⟨hp, trivial⟩
  rw [hq.2]
  have hnumber : jsonNumber s = (strtod (skipWs s)).map Prod.snd := rfl
  rw [hnumber]
  cases hd : strtod (skipWs s) with
  | none => exact Triple.pure fun p hp => rfl
  | some out =>
    obtain ⟨t, r⟩ := out
    rw [strtod, skipWs_skipWs] at hd
    obtain ⟨heq, -, -⟩ := longestPrefix_sound (Nat.le_refl _) hd
    have htext : text = (text.take q ++ t) ++ r := by rw [List.append_assoc, ← heq, ← hq.2, List.take_append_drop]
    refine Triple.run fun p _ => ⟨true, text.length - r.length, rfl, rfl, Nat.sub_le _ _, ?_⟩
    have hlen := congrArg List.length htext
    rw [List.length_append] at hlen
    rw [hlen, Nat.add_sub_cancel]
    exact (congrArg (List.drop _) htext).trans List.drop_left

theorem walkItems_walks {item : Walk Bool} {f : Bytes → Option Bytes} (hitem : Runs text item f)
    (hshort : ∀ s r, f s = some r → r.length < s.length) {close : UInt8} (hclose : close ≠ 0) :
    ∀ (fuel fuel' : Nat) {s : Bytes}, s.length < fuel → s.length ≤ fuel' →
      Walks text s (walkItems text item close fuel) (Ends text (jsonSkipItems f close fuel' s))
  | 0, _, _, h, _ => absurd h (Nat.not_lt_zero _)
  | fuel + 1, fuel', s, hfuel, hfuel' => by
    rw [walkItems]
    refine Triple.bind (hitem s) fun ok => ?_
    cases hf : f s with
    | none =>
      have hnone : jsonSkipItems f close fuel' s = none := by
        cases fuel' with
        | zero => rfl
        | succ n => rw [jsonSkipItems, hf]; rfl
      rw [hnone]
      refine Triple.pre (R := fun p => ok = false ∧ True) (Triple.assume fun hok => ?_) fun p hp => ⟨hp, trivial⟩
      subst hok
      exact Triple.pure fun p hp => rfl
    | some r =>
      have hlt := hshort s r hf
      obtain ⟨n, rfl⟩ := Nat.exists_eq_succ_of_ne_zero (n := fuel') (by omega)
      refine Triple.assume fun hok => ?_
      subst hok
      refine walkWs_then h0 (Triple.bind (peek_walks (Nat.zero_le _)) fun c => Triple.assume fun hc => ?_)
      have hskip := skipWs_length_le r
      rw [Nat.succ_eq_add_one, jsonSkipItems, hf, Option.map_some]
      cases hr : skipWs r with
      | nil =>
        rw [hr] at hc
        obtain rfl : c = 0 := hc
        rw [if_neg (Ne.symm hclose), if_pos (by decide)]
        exact Triple.pure fun p hp => rfl
      | cons d t =>
        rw [hr] at hc hskip
        obtain rfl : c = d := hc
        have hstep : 1 ≤ (c :: t).length := Nat.succ_le_succ (Nat.zero_le _)
        rw [List.length_cons] at hskip
        simp only
        by_cases hcl : c = close
        · rw [if_pos hcl, if_pos hcl]
          exact Triple.bind (walkStep_walks hstep) fun _ => Triple.pure fun p hp => ⟨rfl, hp⟩
        · rw [if_neg hcl, if_neg hcl]
          by_cases hcomma : c = 44
          · rw [if_pos hcomma, if_neg (not_not.mpr hcomma)]
            refine Triple.bind (walkStep_walks hstep) fun _ => ?_
            exact walkItems_walks hitem hshort hclose fuel n (s := t) (by omega) (by omega)
          · rw [if_neg hcomma, if_pos hcomma]
            exact Triple.pure fun p hp => rfl

theorem walkSeq_runs {item : Walk Bool} {f : Bytes → Option Bytes} (hitem : Runs text item f)
    (hshort : ∀ s r, f s = some r → r.length < s.length) {opening close : UInt8} (hopen : opening ≠ 0)
    (hclose : close ≠ 0) {depth : Nat} (hdepth : depth < jsonMaxNesting) :
    Runs text (walkSeq text item opening close depth) (jsonSkipSeq f opening close) := by
  intro s
  rw [walkSeq, if_neg (by omega), jsonSkipSeq]
  refine walkWs_then h0 (Triple.bind (peek_walks (Nat.zero_le _)) fun c => Triple.assume fun hc => ?_)
  cases hs : skipWs s with
  | nil =>
    rw [hs] at hc
    obtain rfl : c = 0 := hc
    rw [if_pos (Ne.symm hopen)]
    exact Triple.pure fun p hp => rfl
  | cons d r =>
    rw [hs] at hc
    obtain rfl : c = d := hc
    simp only
    by_cases hcopen : c = opening
    swap
    · rw [if_neg hcopen, if_pos hcopen]
      exact Triple.pure fun p hp => rfl
    rw [if_pos hcopen, if_neg (not_not.mpr hcopen)]
    refine Triple.bind (walkStep_walks (Nat.succ_le_succ (Nat.zero_le _))) fun _ => ?_
    refine walkWs_then h0 (s := r) (walks_known h0 fun _ hlen => ?_)
    refine Triple.bind (peek_walks (Nat.zero_le _)) fun c' => Triple.assume fun hc' => ?_
    cases hr : skipWs r with
    | nil =>
      rw [hr] at hc'
      obtain rfl : c' = 0 := hc'
      rw [if_neg (Ne.symm hclose)]
      -- the loop finds no item here
      have hnone : jsonSkipItems f close 0 [] = none := rfl
      have hitems := walkItems_walks h0 hitem hshort hclose (rounds text) 0 (s := []) (Nat.succ_pos _) le_rfl
      rwa [hnone] at hitems
    | cons d' r' =>
      rw [hr] at hc' hlen
      obtain rfl : c' = d' := hc'
      simp only
      by_cases hcclose : c' = close
      · rw [if_pos hcclose, if_pos hcclose]
        exact Triple.bind (walkStep_walks (Nat.succ_le_succ (Nat.zero_le _))) fun _ => Triple.pure fun p hp => ⟨rfl, hp⟩
      · rw [if_neg hcclose, if_neg hcclose]
        exact walkItems_walks h0 hitem hshort hclose _ _ hlen le_rfl

theorem walkMember_runs {value : Walk Bool} {f : Bytes → Option Bytes} (hvalue : Runs text value f) :
    Runs text (walkMember text value) (jsonSkipMember f) := by
  intro s
  rw [walkMember, jsonSkipMember]
  have hstring : Walks text s (walkString text) (Ends text ((jsonString s).map Prod.snd)) := walkString_runs h0 s
  refine Triple.bind hstring fun ok => ?_
  cases hs : jsonString s with
  | none =>
    refine Triple.pre (R := fun p => ok = false ∧ True) (Triple.assume fun hok => ?_) fun p hp => ⟨hp, trivial⟩
    subst hok
    exact Triple.pure fun p hp => rfl
  | some out =>
    refine Triple.assume fun hok => ?_
    subst hok
    refine walkWs_then h0 (Triple.bind (peek_walks (Nat.zero_le _)) fun c => Triple.assume fun hc => ?_)
    rw [Option.map_some]
    cases hr : skipWs out.2 with
    | nil =>
      rw [hr] at hc
      obtain rfl : c = 0 := hc
      rw [if_pos (by decide)]
      exact Triple.pure fun p hp => rfl
    | cons d r =>
      rw [hr] at hc
      obtain rfl : c = d := hc
      simp only
      by_cases hcolon : c = 58
      · rw [if_pos hcolon, if_neg (not_not.mpr hcolon)]
        exact Triple.bind (walkStep_walks (Nat.succ_le_succ (Nat.zero_le _))) fun _ => hvalue r
      · rw [if_neg hcolon, if_pos hcolon]
        exact Triple.pure fun p hp => rfl

omit h0 in
/-- A word, or what is tried behind it. -/
theorem walkLit_then {lit s : Bytes} (hlit : 0 ∉ lit) {x : Walk Bool} {f : Option Bytes}
    (hx : Walks text s x (Ends text f)) :
    Walks text s (walkLit text lit >>= fun ok => if ok then pure true else x)
      (Ends text (if startsWith lit s then some (s.drop lit.length) else f)) := by
  refine Triple.bind (walkLit_walks hlit) fun ok => ?_
  by_cases h : startsWith lit s = true
  · simp only [h, if_true]
    refine Triple.assume fun hok => ?_
    subst hok
    exact Triple.pure fun p hp => ⟨rfl, hp⟩
  · simp only [h]
    refine Triple.assume fun hok => ?_
    subst hok
    exact hx

theorem walkAny_runs {array object : Walk Bool} {fa fo : Bytes → Option Bytes} (ha : Runs text array fa)
    (ho : Runs text object fo) : Runs text (walkAny text array object) (jsonSkipAny fa fo) := by
  intro s
  rw [walkAny, jsonSkipAny]
  refine walkWs_then h0 (Triple.bind (peek_walks (Nat.zero_le _)) fun c => Triple.assume fun hc => ?_)
  have hhead : ∀ x : UInt8, x ≠ 0 → (startsWith [x] (skipWs s) = true ↔ c = x) := by
    intro x hx
    cases hs : skipWs s with
    | nil =>
      rw [hs] at hc
      obtain rfl : c = 0 := hc
      simp [Ne.symm hx]
    | cons d r =>
      rw [hs] at hc
      obtain rfl : c = d := hc
      rw [startsWith_cons_cons, startsWith_nil, Bool.and_true, beq_iff_eq]
      exact eq_comm
  simp only [hhead 34 (by decide), hhead 123 (by decide), hhead 91 (by decide)]
  by_cases hquote : c = 34
  · rw [if_pos hquote, if_pos hquote]
    exact walkString_runs h0 _
  rw [if_neg hquote, if_neg hquote]
  by_cases hbrace : c = 123
  · rw [if_pos hbrace, if_pos hbrace]
    exact ho _
  rw [if_neg hbrace, if_neg hbrace]
  by_cases hbracket : c = 91
  · rw [if_pos hbracket, if_pos hbracket]
    exact ha _
  rw [if_neg hbracket, if_neg hbracket]
  refine walkLit_then (by decide) ?_
  refine walkLit_then (by decide) ?_
  refine walkLit_then (by decide) ?_
  exact walkNumber_runs h0 _

omit h0 in
theorem jsonSkipValueDepth_shortens (d : Nat) : ∀ s r, jsonSkipValueDepth d s = some r → r.length < s.length := by
  intro s r h
  obtain ⟨w, v, m, -, rfl, hv⟩ := jsonSkipValueDepth_sound d s r h
  have := List.length_pos_iff.mpr hv.ne_nil
  simp only [List.length_append]
  omega

omit h0 in
theorem jsonSkipMember_shortens (d : Nat) :
    ∀ s r, jsonSkipMember (jsonSkipValueDepth d) s = some r → r.length < s.length := by
  intro s r h
  obtain ⟨i, m, rfl, hi⟩ := jsonSkipMember_sound (jsonSkipValueDepth_sound d) s r h
  obtain ⟨w, c, t, -, rfl, -⟩ := hi.head
  simp only [List.length_append, List.length_cons]
  omega

/-- The walk through a value, with `levels` calls left when `depth` of them are taken. -/
theorem walkValueDepth_runs : ∀ (levels depth : Nat), levels + depth = jsonMaxNesting →
    Runs text (walkValueDepth text levels depth) (jsonSkipValueDepth levels)
  | 0, depth, h => by
    -- the guard of the source is what keeps the last level from a call
    have hguard : ∀ (x : Walk Bool) (o c : UInt8), Runs text (walkSeq text x o c depth) fun _ => none := by
      intro x o c s
      rw [walkSeq, if_pos (by omega)]
      exact Triple.pure fun p hp => rfl
    rw [walkValueDepth]
    exact walkAny_runs h0 (hguard _ _ _) (hguard _ _ _)
  | levels + 1, depth, h => by
    have ih := walkValueDepth_runs levels (depth + 1) (by omega)
    rw [walkValueDepth]
    refine walkAny_runs h0 ?_ ?_
    · exact walkSeq_runs h0 ih (jsonSkipValueDepth_shortens levels) (by decide) (by decide) (by omega)
    · exact walkSeq_runs h0 (walkMember_runs h0 ih) (jsonSkipMember_shortens levels) (by decide) (by decide) (by omega)

/-- `json_skip_value` ends where `jsonSkipValue` does, without a fault. -/
theorem walkValue_runs : Runs text (walkValue text) jsonSkipValue := walkValueDepth_runs h0 jsonMaxNesting 0 rfl

end

end

/-! ## Values by their depth -/

/-- `StandardJson` with the levels of its brackets: at most `d`. -/
inductive NestedJson : JsonKind → Nat → Bytes → Bytes → Prop
  | string {d : Nat} {t : Bytes} : StandardBody t → NestedJson .value d (34 :: t ++ [34]) (34 :: t ++ [34])
  | word {d : Nat} {t : Bytes} : t ∈ [utf8 "true", utf8 "false", utf8 "null"] → NestedJson .value d t t
  | number {d : Nat} {t : Bytes} : StandardNumber t → NestedJson .value d t t
  | empty {d : Nat} {w : Bytes} (b : Bool) : StandardBlank w →
      NestedJson .value (d + 1) (opening b :: w ++ [closing b]) [opening b, closing b]
  | node {d : Nat} {s m : Bytes} (b : Bool) : NestedJson (.items b) d s m →
      NestedJson .value (d + 1) (opening b :: s) (opening b :: m)
  | element {d : Nat} {w v m : Bytes} : StandardBlank w → NestedJson .value d v m →
      NestedJson (.item false) d (w ++ v) m
  | member {d : Nat} {w key w1 w2 v m : Bytes} : StandardBlank w → StandardBody key → StandardBlank w1 →
      StandardBlank w2 → NestedJson .value d v m →
      NestedJson (.item true) d (w ++ (34 :: key ++ 34 :: (w1 ++ 58 :: (w2 ++ v)))) (34 :: key ++ 34 :: 58 :: m)
  | last {d : Nat} {i w m : Bytes} (b : Bool) : NestedJson (.item b) d i m → StandardBlank w →
      NestedJson (.items b) d (i ++ (w ++ [closing b])) (m ++ [closing b])
  | cons {d : Nat} {i w m s ms : Bytes} (b : Bool) : NestedJson (.item b) d i m → StandardBlank w →
      NestedJson (.items b) d s ms → NestedJson (.items b) d (i ++ (w ++ 44 :: s)) (m ++ 44 :: ms)

theorem NestedJson.spell {kind : JsonKind} {d : Nat} {v m : Bytes} (h : NestedJson kind d v m) : JsonSpell kind d v m := by
  induction h with
  | string ht => exact .string ht.1
  | word ht => exact .word ht
  | number hn => exact .number hn.form.1 hn.form.2
  | empty b hw => exact .empty b hw.blank
  | node b _ ih => exact .node b ih
  | element hw _ ih => exact .element hw.blank ih
  | member hw hkey hw1 hw2 _ ih => exact .member hw.blank hkey.1 hw1.blank hw2.blank ih
  | last b _ hw ih => exact .last b ih hw.blank
  | cons b _ hw _ ih1 ih2 => exact .cons b ih1 hw.blank ih2

theorem NestedJson.mono {kind : JsonKind} {d : Nat} {v m : Bytes} (h : NestedJson kind d v m) :
    ∀ n, NestedJson kind (d + n) v m := by
  induction h with
  | string ht => exact fun n => .string ht
  | word ht => exact fun n => .word ht
  | number hn => exact fun n => .number hn
  | @empty d w b hw =>
    intro n
    rw [Nat.add_right_comm]
    exact .empty b hw
  | @node d s m b _ ih =>
    intro n
    rw [Nat.add_right_comm]
    exact .node b (ih n)
  | element hw _ ih => exact fun n => .element hw (ih n)
  | member hw hkey hw1 hw2 _ ih => exact fun n => .member hw hkey hw1 hw2 (ih n)
  | last b _ hw ih => exact fun n => .last b (ih n) hw
  | cons b _ hw _ ih1 ih2 => exact fun n => .cons b (ih1 n) hw (ih2 n)

/-- Every value of the standard has a depth. -/
theorem StandardJson.nested {kind : JsonKind} {v m : Bytes} (h : StandardJson kind v m) : ∃ d, NestedJson kind d v m := by
  induction h with
  | string ht => exact ⟨0, .string ht⟩
  | word ht => exact ⟨0, .word ht⟩
  | number hn => exact ⟨0, .number hn⟩
  | empty b hw => exact ⟨1, .empty b hw⟩
  | node b _ ih =>
    obtain ⟨d, hd⟩ := ih
    exact ⟨d + 1, .node b hd⟩
  | element hw _ ih =>
    obtain ⟨d, hd⟩ := ih
    exact ⟨d, .element hw hd⟩
  | member hw hkey hw1 hw2 _ ih =>
    obtain ⟨d, hd⟩ := ih
    exact ⟨d, .member hw hkey hw1 hw2 hd⟩
  | last b _ hw ih =>
    obtain ⟨d, hd⟩ := ih
    exact ⟨d, .last b hd hw⟩
  | cons b _ hw _ ih1 ih2 =>
    obtain ⟨d, hd⟩ := ih1
    obtain ⟨e, he⟩ := ih2
    have he' := he.mono d
    rw [Nat.add_comm] at he'
    exact ⟨d + e, .cons b (hd.mono e) hw he'⟩

/-- What may follow a value. -/
def Continues (r : Bytes) : Prop := ∀ c t, r = c :: t → isSpace c = true ∨ c ∈ ([44, 93, 125] : List UInt8)

theorem Continues.delimited {r : Bytes} (h : Continues r) : Delimited r := by
  intro c t hr
  rcases h c t hr with hspace | hmem
  · exact Blank.delimited (w := [c]) (by simpa [Blank] using hspace) c [] rfl
  · simp only [List.mem_cons, List.not_mem_nil, or_false] at hmem
    rcases hmem with rfl | rfl | rfl <;> rfl

theorem jsonSkip_exact :
    (∀ {d : Nat} {v m r : Bytes}, NestedJson .value d v m → d ≤ jsonMaxNesting → Continues r →
      jsonSkipValue (v ++ r) = some r ∧ jsonRawValue (v ++ r) = some (v, r) ∧ jsonMinifyRawValue v = m ∧
        jsonMinifyRawValue (jsonMinifyRawValue v) = jsonMinifyRawValue v) ∧
    ∀ text : Bytes, 0 ∉ text → ∀ p ≤ text.length,
      ∃ ok p', walkValue text p = .ok ok p' ∧ Ends text (jsonSkipValue (text.drop p)) ok p' := by
  constructor
  · intro d v m r hv hd hr
    obtain ⟨n, hn⟩ := Nat.exists_eq_add_of_le hd
    have hspell : JsonSpell .value jsonMaxNesting v m := hn ▸ (hv.mono n).spell
    have hmin := hspell.minifyRaw
    refine ⟨hspell.skipsTo r hr.delimited, hspell.rawValue blank_nil hr.delimited, hmin, ?_⟩
    rw [hmin]
    exact hspell.minified.minifyRaw
  · intro text h0 p hp
    have h := walkValue_runs h0 (text.drop p) p ⟨hp, rfl⟩
    cases hw : walkValue text p with
    | ok ok p' =>
      rw [hw] at h
      exact ⟨ok, p', rfl, h⟩
    | error e p' =>
      rw [hw] at h
      exact absurd h id

/-- `[ 1]`, before a comma. -/
theorem jsonSkip_exact_sample :
    jsonRawValue ([91, 32, 49, 93] ++ [44]) = some ([91, 32, 49, 93], [44]) ∧
      ∃ ok p', walkValue [91, 32, 49, 93, 44] 0 = .ok ok p' ∧
        Ends [91, 32, 49, 93, 44] (jsonSkipValue ([91, 32, 49, 93, 44].drop 0)) ok p' := by
  have hdigits : Digits [49] := ⟨List.cons_ne_nil _ _, fun c hc => by rw [List.mem_singleton.mp hc]; rfl⟩
  have hnumber : StandardNumber [49] := ⟨[], [49], [], [], by simp, .inr ⟨hdigits, by simp⟩, .inl rfl, .inl rfl, rfl⟩
  have hspace : StandardBlank [32] := by simp [StandardBlank]
  have hcomma : Continues [44] := by
    intro c t h
    obtain rfl := List.head_eq_of_cons_eq h
    exact .inr (by decide)
  have hv : NestedJson .value 1 [91, 32, 49, 93] [91, 49, 93] :=
    .node false (.last (i := [32, 49]) (w := []) false (.element (w := [32]) hspace (.number hnumber)) standardBlank_nil)
  exact ⟨(jsonSkip_exact.1 hv (by decide) hcomma).2.1, jsonSkip_exact.2 _ (by decide) 0 (Nat.zero_le _)⟩

end Ds4.Server
