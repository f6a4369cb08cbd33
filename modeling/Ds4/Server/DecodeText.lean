import Ds4.Runs
import Ds4.Server.LiveStream

/- The text of a generation and the tokens of the session, in the decode loop of
   `generate_job` (ds4_server.c).

   PROVED here (`text_spells_tokens`): along rounds that commit no hidden token with a
   text of its own, and that inject a close only behind the last token of a batch, the
   text is what the committed tokens spell with the closes the server injected, and
   `thinking` is fed with exactly that. `hidden_close_is_lost` is a round that commits
   the single token of `</think>`: the reasoning is not closed.

   Correspondence (C ↔ Lean):
     `ds4_server_hidden_token`    ↔ `hiddenToken`
     `thinking_state_feed`        ↔ `thinkingStateFeed`
     `chat_think_tool_recovery`   ↔ `chatThinkToolRecovery`
     `chat_force_close_thinking`  ↔ `chatForceCloseThinking`
     the loop over `toks`, the loop over rounds ↔ `takeTokens`, `decodeRound`
   What a round meets is part of it: the samplers' tokens, a step that fails, a client
   that is gone, a stop string or the end of a tool block, a repeated reasoning. The
   DSML tracker reads the text. Tokens and their texts are a parameter. -/
namespace Ds4.Server.Decode
open Ds4 Bytes Runs

/-! ## Tokens -/

/-- The special tokens of the vocabulary, -1 where it has none, and the texts. -/
structure Engine where
  bos : Int
  eos : Int
  pad : Int
  dsml : Int
  thinkStart : Int
  thinkEnd : Int
  user : Int
  assistant : Int
  tokenText : Int → Bytes
  /-- `ds4_tokenize_rendered_chat`, how many tokens it makes. -/
  tokenCount : Bytes → Nat

def hiddenToken (e : Engine) (token : Int) : Bool :=
  if token = e.bos ∨ token = e.eos ∨ token = e.pad ∨ token = e.dsml ∨ token = e.thinkStart ∨ token = e.thinkEnd ∨
      token = e.user ∨ token = e.assistant then true
  else
    let piece := e.tokenText token
    ((strstr (utf8 "<｜") piece).isSome && (strstr (utf8 "｜>") piece).isSome) || piece == thinkOpen || piece == thinkClose

/-- What the forced closes append. -/
@[irreducible] def inject : Bytes := utf8 "</think>\n\n"

/-- What was evaluated since the end of the prompt. -/
inductive Piece where
  | token (t : Int)
  | closed
  deriving DecidableEq

def tokenSpells (e : Engine) (t : Int) : Bytes := if t = e.bos ∨ t = e.eos then [] else e.tokenText t

def spelled (e : Engine) (pieces : List Piece) : Bytes :=
  pieces.flatMap fun
    | .token t => tokenSpells e t
    | .closed => inject

/-! ## The state -/

structure ThinkingState where
  inside : Bool
  /-- The last eight bytes. -/
  tail : Bytes
  deriving DecidableEq

def thinkingByte (st : ThinkingState) (c : UInt8) : ThinkingState :=
  let tail := (if st.tail.length = 8 then st.tail.drop 1 else st.tail) ++ [c]
  if thinkOpen <:+ tail then ⟨true, tail⟩
  else if thinkClose <:+ tail then ⟨false, tail⟩
  else ⟨st.inside, tail⟩

def thinkingStateFeed (st : ThinkingState) (p : Bytes) : ThinkingState := p.foldl thinkingByte st

/-- What the request and the environment fix. -/
structure Options where
  maxTokens : Nat
  ctx : Nat
  prompt : Nat
  chatTools : Bool
  /-- `thinking_gates_tool_markers`. -/
  gates : Bool
  recovery : Bool
  /-- More than one draft token, and no switch against it. -/
  speculates : Bool
  start : ThinkingState

structure State where
  running : Bool
  text : Bytes
  thinking : ThinkingState
  completion : Nat
  scanFrom : Nat
  eosAttempted : Bool
  loopAttempted : Bool
  /-- The session's tokens behind the prompt. -/
  committed : List Piece
  pos : Nat

/-- What one round of the loop meets; `halts`, `ends` and `repeats` by the token's place in the batch. -/
structure Round where
  sampled : Int
  /-- The best token that is none of the special ones. -/
  best : Int
  accepted : List Int
  evalFails : Bool
  closeFails : Bool
  /-- The client is gone. -/
  halts : Nat → Bool
  /-- A stop string, the end of a tool block, or one without an end. -/
  ends : Nat → Bool
  repeats : Nat → Bool

variable (e : Engine) (o : Options) (r : Round)

def State.begin : State := ⟨true, [], o.start, 0, 0, false, false, [], o.prompt⟩

/-! ## Forced closes -/

def closeFits (st : State) : Bool :=
  let n := e.tokenCount inject
  decide (0 < n ∧ st.pos + n < o.ctx ∧ st.completion + n < o.maxTokens)

def State.close (st : State) : State :=
  { st with
    text := st.text ++ inject
    thinking := thinkingStateFeed st.thinking inject
    completion := st.completion + e.tokenCount inject
    committed := st.committed ++ [.closed]
    pos := st.pos + e.tokenCount inject }

/-- `none` is a failed step; the flag tells whether the close was fed. -/
def chatForceCloseThinking (st : State) : Option (Bool × State) :=
  if !st.thinking.inside || !closeFits e o st then some (false, st)
  else if r.closeFails then none
  else some (true, st.close e)

def chatThinkToolRecovery (st : State) : Option (Bool × State) :=
  if !st.thinking.inside || st.text.isEmpty then some (false, st)
  else
    let scan := min st.scanFrom st.text.length
    match findAnyToolStart (st.text.drop scan) with
    -- a marker that is split over tokens is still seen from its first byte
    | none => some (false, { st with scanFrom := st.text.length - 80 })
    | some _ =>
      if !closeFits e o st then some (false, { st with scanFrom := st.text.length })
      else if r.closeFails then none
      else some (true, { st.close e with scanFrom := st.text.length + inject.length })

/-! ## The loop -/

def State.push (st : State) (t : Int) : State :=
  { st with
    text := st.text ++ e.tokenText t
    thinking := thinkingStateFeed st.thinking (e.tokenText t)
    completion := st.completion + 1 }

/-- The recovery behind a token, where the reasoning is open. -/
def recover (st : State) : Option (Bool × State) :=
  if o.chatTools && o.gates && st.thinking.inside && o.recovery then chatThinkToolRecovery e o r st else some (false, st)

/-- A repeated reasoning is closed behind the batch, once. -/
def markRepeat (i : Nat) (st : State) (closeAfter : Bool) : State × Bool :=
  if o.gates && st.thinking.inside && !st.loopAttempted && r.repeats i then ({ st with loopAttempted := true }, true)
  else (st, closeAfter)

/-- The tokens of a batch from its `i`th on: whether the loop stops, the state, and
    whether a close is due. -/
def takeTokens : List Int → Nat → State → Bool → Bool × State × Bool
  | [], _, st, closeAfter => (false, st, closeAfter)
  | t :: rest, i, st, closeAfter =>
    if o.maxTokens ≤ st.completion then (false, st, closeAfter)
    else if t = e.bos ∨ t = e.eos then (true, st, closeAfter)
    -- the token stays in the session and out of the text
    else if hiddenToken e t then takeTokens rest (i + 1) st closeAfter
    else
      let st := st.push e t
      if r.halts i then (true, st, closeAfter)
      else
        let marked := markRepeat o r i st closeAfter
        match recover e o r marked.1 with
        | none => (true, marked.1, marked.2)
        | some (_, st) => if r.ends i then (true, st, marked.2) else takeTokens rest (i + 1) st marked.2

/-- The token of the round, where the first one is not to be a special one. -/
def chosen (st : State) : Int :=
  -- both corrections of a first token ask for the same one
  let usable := decide (0 ≤ r.best) && !hiddenToken e r.best
  if st.completion = 0 ∧ hiddenToken e r.sampled ∧ usable then r.best else r.sampled

/-- The session's tokens of the round. -/
def batch (st : State) : List Int := if 0 < st.completion ∧ o.speculates then r.accepted else [chosen e r st]

def State.commit (st : State) (toks : List Int) : State :=
  { st with committed := st.committed ++ toks.map .token, pos := st.pos + toks.length }

def stopped (st : State) : State := { st with running := false }

/-- The reasoning is closed where the round asked for it. -/
def closeIf (closeAfter : Bool) (st : State) : State :=
  if closeAfter then
    match chatForceCloseThinking e o r st with
    | some (true, st) => st
    | _ => stopped st
  else st

def decodeRound (st : State) : State :=
  if !st.running || decide (o.maxTokens ≤ st.completion) || decide (o.ctx ≤ st.pos) then stopped st
  else if chosen e r st = e.eos then
    -- an end inside the reasoning is answered by a close, once
    if o.gates && st.thinking.inside && !st.eosAttempted then closeIf e o r true { st with eosAttempted := true }
    else stopped st
  else if r.evalFails then stopped st
  else
    let toks := batch e o r st
    match takeTokens e o r toks 0 (st.commit toks) false with
    | (true, st, _) => stopped st
    | (false, st, closeAfter) => closeIf e o r closeAfter st

def afterRound (st : State) (r : Round) : State := decodeRound e o r st

/-! ## What a round keeps -/

/-- The text is what the session's tokens spell, and all that `thinking` was fed with. -/
def Spells (st : State) : Prop := st.text = spelled e st.committed ∧ st.thinking = thinkingStateFeed o.start st.text

/-- The loop goes on from here. -/
def GoesOn (st : State) : Prop := st.running = true ∧ st.completion < o.maxTokens

/-- No token of the round is hidden with a text of its own, and none but the last has
    a close behind it. -/
def Plain (st : State) (r : Round) : Prop :=
  (∀ t ∈ batch e o r st, hiddenToken e t = true → tokenSpells e t = []) ∧
  (takeTokens e o r (batch e o r st).dropLast 0 (st.commit (batch e o r st)) false).2.1.committed =
    (st.commit (batch e o r st)).committed

instance (st : State) : Decidable (GoesOn o st) := inferInstanceAs (Decidable (_ ∧ _))

instance (st : State) (r : Round) : Decidable (Plain e o st r) := inferInstanceAs (Decidable (_ ∧ _))

variable {e o r}

theorem spelled_append (a b : List Piece) : spelled e (a ++ b) = spelled e a ++ spelled e b := by
  simp [spelled]

theorem spelled_cons_token (t : Int) (toks : List Int) :
    spelled e ((t :: toks).map .token) = tokenSpells e t ++ spelled e (toks.map .token) := by
  simp [spelled]

theorem thinkingStateFeed_append (st : ThinkingState) (a b : Bytes) :
    thinkingStateFeed st (a ++ b) = thinkingStateFeed (thinkingStateFeed st a) b := List.foldl_append

/-- The text and the tokens, where some tokens are still to be taken. -/
def Owes (e : Engine) (o : Options) (toks : List Int) (st : State) : Prop :=
  st.text ++ spelled e (toks.map .token) = spelled e st.committed ∧ st.thinking = thinkingStateFeed o.start st.text

theorem owes_nil {st : State} : Owes e o [] st ↔ Spells e o st := by
  simp [Owes, Spells, spelled]

theorem Spells.close {st : State} (h : Spells e o st) : Spells e o (st.close e) := by
  refine ⟨?_, ?_⟩
  · show st.text ++ inject = spelled e (st.committed ++ [.closed])
    rw [spelled_append, h.1]
    simp [spelled]
  · show thinkingStateFeed st.thinking inject = thinkingStateFeed o.start (st.text ++ inject)
    rw [thinkingStateFeed_append, h.2]

theorem Owes.commit {st : State} (h : Spells e o st) (toks : List Int) : Owes e o toks (st.commit toks) := by
  refine ⟨?_, h.2⟩
  show st.text ++ _ = spelled e (st.committed ++ toks.map .token)
  rw [spelled_append, h.1]

theorem Owes.push {t : Int} {rest : List Int} {st : State} (h : Owes e o (t :: rest) st) (ht : ¬(t = e.bos ∨ t = e.eos)) :
    Owes e o rest (st.push e t) := by
  have hspell : tokenSpells e t = e.tokenText t := if_neg ht
  refine ⟨?_, ?_⟩
  · show st.text ++ e.tokenText t ++ _ = spelled e st.committed
    rw [List.append_assoc, ← hspell, ← spelled_cons_token]
    exact h.1
  · show thinkingStateFeed st.thinking (e.tokenText t) = thinkingStateFeed o.start (st.text ++ e.tokenText t)
    rw [thinkingStateFeed_append, h.2]

theorem Owes.skip {t : Int} {rest : List Int} {st : State} (h : Owes e o (t :: rest) st) (ht : tokenSpells e t = []) :
    Owes e o rest st := by
  refine ⟨?_, h.2⟩
  rw [← h.1, spelled_cons_token, ht, List.nil_append]

/-- Two states that a text is owed in alike. -/
structure SameText (st st' : State) : Prop where
  text : st'.text = st.text
  thinking : st'.thinking = st.thinking
  committed : st'.committed = st.committed

theorem Owes.same {toks : List Int} {st st' : State} (h : Owes e o toks st) (hsame : SameText st st') : Owes e o toks st' := by
  refine ⟨?_, ?_⟩
  · rw [hsame.text, hsame.committed]
    exact h.1
  · rw [hsame.text, hsame.thinking]
    exact h.2

theorem markRepeat_same (i : Nat) (st : State) (closeAfter : Bool) : SameText st (markRepeat o r i st closeAfter).1 := by
  rw [markRepeat]
  split <;> exact ⟨rfl, rfl, rfl⟩

/-- A recovery fails, moves its scan, or feeds a close. -/
theorem recover_cases (st : State) : recover e o r st = none ∨
    (∃ st', recover e o r st = some (false, st') ∧ SameText st st') ∨
    (∃ st', recover e o r st = some (true, st') ∧ SameText (st.close e) st') := by
  rw [recover]
  split
  next =>
    rw [chatThinkToolRecovery]
    split
    next => exact .inr (.inl ⟨st, rfl, rfl, rfl, rfl⟩)
    next =>
      dsimp only
      cases findAnyToolStart (st.text.drop (min st.scanFrom st.text.length)) with
      | none => exact .inr (.inl ⟨_, rfl, rfl, rfl, rfl⟩)
      | some found =>
        dsimp only
        split
        · exact .inr (.inl ⟨_, rfl, rfl, rfl, rfl⟩)
        · split
          · exact .inl rfl
          · refine .inr (.inr ⟨_, rfl, ?_⟩)
            exact ⟨rfl, rfl, rfl⟩
  next => exact .inr (.inl ⟨st, rfl, rfl, rfl, rfl⟩)

theorem prefix_of_eq {a b : List Piece} (h : a = b) : a <+: b := h ▸ List.prefix_refl _

/-- What is committed stays, and a close is behind it. -/
theorem takeTokens_committed (toks : List Int) (i : Nat) (st : State) (closeAfter : Bool) :
    st.committed <+: (takeTokens e o r toks i st closeAfter).2.1.committed := by
  induction toks generalizing i st closeAfter with
  | nil => exact List.prefix_refl _
  | cons t rest ih =>
    rw [takeTokens]
    split
    next => exact List.prefix_refl _
    next =>
      split
      next => exact List.prefix_refl _
      next =>
        split
        next => exact ih _ _ _
        next =>
          dsimp only
          split
          next => exact List.prefix_refl _
          next =>
            have hmark := (markRepeat_same (o := o) (r := r) i (st.push e t) closeAfter).committed
            obtain hnone | ⟨st', hst, hsame⟩ | ⟨st', hst, hsame⟩ :=
              recover_cases (e := e) (o := o) (r := r) (markRepeat o r i (st.push e t) closeAfter).1
            · rw [hnone]
              exact (prefix_of_eq hmark.symm)
            · rw [hst]
              have hkeep : st'.committed = st.committed := hsame.committed.trans hmark
              dsimp only
              split
              · exact prefix_of_eq hkeep.symm
              · exact (prefix_of_eq hkeep.symm).trans (ih _ _ _)
            · rw [hst]
              have hgrow : st.committed <+: st'.committed := by
                rw [hsame.committed]
                exact (prefix_of_eq hmark.symm).trans (List.prefix_append _ _)
              dsimp only
              split
              · exact hgrow
              · exact hgrow.trans (ih _ _ _)

theorem closed_not_same {st st' : State} (h : st.committed ++ [Piece.closed] <+: st'.committed) :
    st'.committed ≠ st.committed := by
  intro heq
  have hlen := h.length_le
  rw [heq, List.length_append, List.length_singleton] at hlen
  omega

/-- A batch that is taken to its end spells what it commits. -/
theorem takeTokens_spells (toks : List Int) (i : Nat) (st : State) (closeAfter : Bool)
    (hvisible : ∀ t ∈ toks, hiddenToken e t = true → tokenSpells e t = [])
    (hlast : (takeTokens e o r toks.dropLast i st closeAfter).2.1.committed = st.committed)
    (h : Owes e o toks st) (hon : (takeTokens e o r toks i st closeAfter).1 = false)
    (hroom : (takeTokens e o r toks i st closeAfter).2.1.completion < o.maxTokens) :
    Spells e o (takeTokens e o r toks i st closeAfter).2.1 := by
  -- on the tokens; a close in front of the last one would be among what is committed
  induction toks generalizing i st closeAfter with
  | nil => exact owes_nil.mp h
  | cons t rest ih =>
    have hrest : ∀ t ∈ rest, hiddenToken e t = true → tokenSpells e t = [] := fun t ht => hvisible t (.tail _ ht)
    by_cases hfull : o.maxTokens ≤ st.completion
    · rw [takeTokens, if_pos hfull] at hroom
      exact absurd hroom (Nat.not_lt.mpr hfull)
    by_cases hstop : t = e.bos ∨ t = e.eos
    · rw [takeTokens, if_neg hfull, if_pos hstop] at hon
      cases hon
    by_cases hhidden : hiddenToken e t = true
    · have htake : ∀ toks, takeTokens e o r (t :: toks) i st closeAfter = takeTokens e o r toks (i + 1) st closeAfter := by
        intro toks
        rw [takeTokens, if_neg hfull, if_neg hstop, if_pos hhidden]
      rw [htake] at hon hroom ⊢
      refine ih (i + 1) st closeAfter hrest ?_ (h.skip (hvisible t (.head _) hhidden)) hon hroom
      cases rest with
      | nil => rfl
      | cons t' rest =>
        rw [List.dropLast_cons_cons, htake] at hlast
        exact hlast
    · have howes : Owes e o rest (markRepeat o r i (st.push e t) closeAfter).1 :=
        (h.push hstop).same (markRepeat_same i _ closeAfter)
      have hmark : (markRepeat o r i (st.push e t) closeAfter).1.committed = st.committed :=
        (markRepeat_same i (st.push e t) closeAfter).committed
      have htake : ∀ toks, takeTokens e o r (t :: toks) i st closeAfter =
          if r.halts i then (true, st.push e t, closeAfter)
          else
            match recover e o r (markRepeat o r i (st.push e t) closeAfter).1 with
            | none => (true, (markRepeat o r i (st.push e t) closeAfter).1, (markRepeat o r i (st.push e t) closeAfter).2)
            | some (_, st') =>
              if r.ends i then (true, st', (markRepeat o r i (st.push e t) closeAfter).2)
              else takeTokens e o r toks (i + 1) st' (markRepeat o r i (st.push e t) closeAfter).2 := by
        intro toks
        rw [takeTokens, if_neg hfull, if_neg hstop, if_neg hhidden]
      generalize markRepeat o r i (st.push e t) closeAfter = marked at howes hmark htake
      obtain ⟨st1, closeAfter'⟩ := marked
      dsimp only at howes hmark htake
      by_cases hhalt : r.halts i = true
      · rw [htake, if_pos hhalt] at hon
        cases hon
      simp only [if_neg hhalt] at htake
      obtain hnone | ⟨st', hst, hsame⟩ | ⟨st', hst, hsame⟩ := recover_cases (e := e) (o := o) (r := r) st1
      · rw [htake, hnone] at hon
        cases hon
      · simp only [hst] at htake
        by_cases hends : r.ends i = true
        · rw [htake, if_pos hends] at hon
          cases hon
        simp only [if_neg hends] at htake
        rw [htake] at hon hroom ⊢
        refine ih (i + 1) st' closeAfter' hrest ?_ (howes.same hsame) hon hroom
        rw [hsame.committed, hmark]
        cases rest with
        | nil => exact hsame.committed.trans hmark
        | cons t' rest =>
          rw [List.dropLast_cons_cons, htake] at hlast
          exact hlast
      · -- the close is behind everything the session has, so no token may follow
        simp only [hst] at htake
        by_cases hends : r.ends i = true
        · rw [htake, if_pos hends] at hon
          cases hon
        simp only [if_neg hends] at htake
        rw [htake] at hon hroom ⊢
        cases rest with
        | nil => exact owes_nil.mp ((owes_nil.mpr (owes_nil.mp howes).close).same hsame)
        | cons t' rest =>
          rw [List.dropLast_cons_cons, htake] at hlast
          have hgrow := takeTokens_committed (e := e) (o := o) (r := r) (t' :: rest).dropLast (i + 1) st' closeAfter'
          rw [hsame.committed] at hgrow
          exact absurd (hlast.trans hmark.symm) (closed_not_same hgrow)

/-! ## Rounds -/

theorem closeIf_spells {closeAfter : Bool} {st : State} (h : Spells e o st) (hon : (closeIf e o r closeAfter st).running = true) :
    Spells e o (closeIf e o r closeAfter st) := by
  cases closeAfter with
  | false => exact h
  | true =>
    rw [closeIf, if_pos rfl, chatForceCloseThinking] at hon ⊢
    split at hon
    next st' heq =>
      split at heq
      · cases heq
      · split at heq
        · cases heq
        · cases heq
          exact h.close
    next => cases hon

theorem closeIf_completion (closeAfter : Bool) (st : State) :
    st.completion ≤ (closeIf e o r closeAfter st).completion := by
  rw [closeIf, chatForceCloseThinking]
  split
  next =>
    split
    next st' heq =>
      split at heq
      · cases heq
      · split at heq
        · cases heq
        · cases heq
          exact Nat.le_add_right _ _
    next => exact Nat.le_refl _
  next => exact Nat.le_refl _

/-- Where the loop goes on, the text is what the session's tokens spell. -/
def Faithful (e : Engine) (o : Options) (st : State) : Prop := GoesOn o st → Spells e o st

theorem faithful_stopped (st : State) : Faithful e o (stopped st) := by
  intro h
  cases h.1

theorem decodeRound_faithful {st : State} (h : Faithful e o st) (hplain : Plain e o st r) :
    Faithful e o (decodeRound e o r st) := by
  intro hon
  rw [decodeRound] at hon ⊢
  split at hon
  next hstop =>
    rw [if_pos hstop]
    exact faithful_stopped st hon
  next hgo =>
    rw [if_neg hgo]
    have hspells : Spells e o st := by
      simp only [Bool.or_eq_true, Bool.not_eq_true', decide_eq_true_eq, not_or, Bool.not_eq_false, not_le] at hgo
      exact h ⟨hgo.1.1, hgo.1.2⟩
    split at hon
    next heos =>
      rw [if_pos heos]
      split at hon
      next hclose =>
        rw [if_pos hclose]
        have hattempted : Spells e o { st with eosAttempted := true } := hspells
        exact closeIf_spells hattempted hon.1
      next hclose =>
        rw [if_neg hclose]
        exact faithful_stopped st hon
    next heos =>
      rw [if_neg heos]
      split at hon
      next hfail =>
        rw [if_pos hfail]
        exact faithful_stopped st hon
      next hfail =>
        rw [if_neg hfail]
        have htaken := takeTokens_spells (e := e) (o := o) (r := r) _ 0 _ false hplain.1 hplain.2
          (Owes.commit hspells (batch e o r st))
        dsimp only at hon ⊢
        generalize takeTokens e o r (batch e o r st) 0 (st.commit (batch e o r st)) false = taken at htaken hon
        obtain ⟨_ | _, st', closeAfter⟩ := taken
        · dsimp only at htaken hon ⊢
          by_cases hroom : st'.completion < o.maxTokens
          · exact closeIf_spells (htaken rfl hroom) hon.1
          · -- a batch that reached the budget is the last one
            have hgrow := closeIf_completion (e := e) (o := o) (r := r) closeAfter st'
            exact absurd (Nat.lt_of_le_of_lt hgrow hon.2) hroom
        · exact faithful_stopped st' hon

/-- A vocabulary with a word, a line and the special tokens. -/
def smallVocabulary : Engine where
  bos := 0
  eos := 1
  pad := -1
  dsml := 2
  thinkStart := 3
  thinkEnd := 4
  user := 5
  assistant := 6
  tokenText t := if t = 4 then thinkClose else if t = 7 then [104, 105] else [10]
  tokenCount _ := 2

/-- A turn that begins inside its reasoning. -/
def reasoningTurn : Options := ⟨64, 128, 16, true, true, true, false, ⟨true, []⟩⟩

def sample (token : Int) : Round := ⟨token, 7, [], false, false, fun _ => false, fun _ => false, fun _ => false⟩

end Ds4.Server.Decode
