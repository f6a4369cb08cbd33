import Mathlib.Data.List.Induction
import Ds4.Runs

/- Bringing a session to a prompt (ds4.c): which of extension, resumed prefill and
   rebuild a call takes, and what it leaves when a step fails or the caller cancels.

   Proved here:
     1. `prefillChunkedRange_spec`, `decodeStreamingRange_spec` — what a range
        publishes where it ends, stops or fails.
     2. `apply_coherent` — a valid session's KV and logits are those of its tokens,
        after any call that is no slip (`Slips`).
     3. `session_sync_coherent` — along every run whose slips are followed by a fresh
        start, what each call to `ds4_session_sync` leaves for each of its results.

   Correspondence (C ↔ Lean):
     `ds4_session_sync`                           ↔ `sync`, its last part `rebuild`
     `ds4_session_note_prefill_progress`          ↔ `notePrefillProgress`
     `metal_graph_prefill_chunked_range`          ↔ `prefillChunkedRange`
     `metal_graph_prefill_decode_streaming_range` ↔ `decodeStreamingRange`
     `metal_graph_prefill_raw_swa`                ↔ `prefillRawSwa`
     `ds4_session_eval_internal`                  ↔ `eval`
     `ds4_session_invalidate`                     ↔ `invalidate`
   The KV of a sequence of tokens and the kernels that extend it are a parameter
   (`Kernels`), and so is what a failed step leaves. The session is a local one. -/
namespace Ds4.Engine.Sync
open Ds4 Ds4.Runs

/-! ## Sessions -/

/-- The KV contents with all counters, and the logits, as functions of the tokens. -/
structure Kernels (K L : Type) where
  kvOf : List Nat → K
  logitsOf : List Nat → L
  /-- Tokens evaluated from a position on. -/
  evaluate : K → Nat → List Nat → K × L
  evaluate_kvOf : ∀ ts us, us ≠ [] → evaluate (kvOf ts) ts.length us = (kvOf (ts ++ us), logitsOf (ts ++ us))

/-- What the engine, the graph and the environment fix. -/
structure Config where
  isCpu : Bool
  ctxSize : Nat
  prefillCap : Nat
  rawCap : Nat
  /-- `metal_graph_resume_prefill_min_tokens`. -/
  resumeMin : Nat
  ssdStreaming : Bool
  quality : Bool
  /-- `metal_graph_streaming_decode_prefill_max_tokens`. -/
  streamingMax : Nat
  /-- `DS4_METAL_DISABLE_STREAMING_COLD_DECODE_PREFILL` is not set. -/
  coldStreaming : Bool

structure Session (K L : Type) where
  checkpoint : List Nat
  valid : Bool
  kv : K
  logits : L

/-- What a call meets: the answers of the cancel callback, and the steps that fail
    with the KV and logits they leave, both by position. -/
structure Weather (K L : Type) where
  atEntry : Bool
  before : Nat → Bool
  after : Nat → Bool
  reset : Option K
  fails : Nat → Option (K × L)

inductive Result where
  | ok
  | error
  | interrupted
  deriving DecidableEq

/-- How a prefill over a range ends. -/
inductive Ended where
  | done
  | failed
  | cancelled
  deriving DecidableEq

variable {K L : Type} (m : Kernels K L) (c : Config) (w : Weather K L)

/-! ## Prefill -/

/-- A published frontier. It is what the server may save. -/
def notePrefillProgress (prompt : List Nat) (current : Nat) (s : Session K L) : Session K L :=
  if 0 < current ∧ current ≤ prompt.length then { s with checkpoint := prompt.take current, valid := true } else s

def note (progress : Bool) (prompt : List Nat) (current : Nat) (s : Session K L) : Session K L :=
  if progress then notePrefillProgress prompt current s else s

/-- One step of the device over tokens of the prompt. -/
def deviceStep (prompt : List Nat) (pos n : Nat) (withLogits : Bool) (s : Session K L) : Option (Session K L) × Session K L :=
  match w.fails pos with
  | some (kv, logits) => (none, { s with kv := kv, logits := logits })
  | none =>
    let r := m.evaluate s.kv pos ((prompt.drop pos).take n)
    let s' := { s with kv := r.1, logits := if withLogits then r.2 else s.logits }
    (some s', s')

def useStreamingDecodePrefill (n : Nat) : Bool :=
  c.ssdStreaming && !c.quality && n != 0 && c.streamingMax != 0 && decide (n ≤ c.streamingMax)

def useStreamingDecodePrefillRange (start n : Nat) : Bool :=
  (start != 0 || c.coldStreaming) && useStreamingDecodePrefill c n

/-- The tokens from `start + i` on, `left` of them. -/
def streamLoop (progress : Bool) (prompt : List Nat) : (pos left : Nat) → Session K L → Ended × Session K L
  | _, 0, s => (.done, s)
  | pos, left + 1, s =>
    if w.before pos then (.cancelled, s)
    else
      -- logits are read for the last token only, and the range is published there
      match deviceStep m w prompt pos 1 (left == 0) s with
      | (none, s) => (.failed, s)
      | (some s, _) =>
        let s := if left = 0 then note progress prompt (pos + 1) s else s
        if w.after (pos + 1) then (.cancelled, s) else streamLoop progress prompt (pos + 1) left s

def decodeStreamingRange (progress : Bool) (prompt : List Nat) (start n : Nat) (s : Session K L) : Ended × Session K L :=
  streamLoop m w progress prompt start n (note progress prompt start s)

/-- The tokens of the chunk at `pos`: a resumed range keeps to the boundaries of a cold one. -/
def chunkLen (start pos limit : Nat) : Nat :=
  let chunkCap := if start ≠ 0 then min c.prefillCap c.rawCap else c.prefillCap
  let localCap := if start ≠ 0 ∧ pos % c.prefillCap ≠ 0 then min chunkCap (c.prefillCap - pos % c.prefillCap) else chunkCap
  min (limit - pos) localCap

/-- `fuel` bounds the chunks; the tokens of the range are enough. -/
def chunkLoop (prompt : List Nat) (start limit : Nat) : (fuel pos : Nat) → Session K L → Ended × Session K L
  | 0, _, s => (.done, s)
  | fuel + 1, pos, s =>
    if limit ≤ pos then (.done, s)
    else if w.before pos then (.cancelled, s)
    else
      let n := chunkLen c start pos limit
      match deviceStep m w prompt pos n true s with
      | (none, s) => (.failed, s)
      | (some s, _) =>
        let s := notePrefillProgress prompt (pos + n) s
        if w.after (pos + n) then (.cancelled, s) else chunkLoop prompt start limit fuel (pos + n) s

/-- Called with the progress callback of `ds4_session_sync`. -/
def prefillChunkedRange (prompt : List Nat) (start n : Nat) (s : Session K L) : Ended × Session K L :=
  if n = 0 ∨ c.prefillCap = 0 then (.failed, s)
  else if prompt.length < start then (.failed, s)
  else if prompt.length - start < n then (.failed, s)
  else if useStreamingDecodePrefillRange c start n then decodeStreamingRange m w true prompt start n s
  else if start ≠ 0 ∧ c.rawCap = 0 then (.failed, s)
  else chunkLoop m c w prompt start (start + n) n start (notePrefillProgress prompt start s)

/-- A short prompt: one submission that cannot be cancelled, or decode steps that publish nothing. -/
def prefillRawSwa (prompt : List Nat) (s : Session K L) : Ended × Session K L :=
  if prompt.length = 0 ∨ c.prefillCap < prompt.length then (.failed, s)
  else if useStreamingDecodePrefillRange c 0 prompt.length then decodeStreamingRange m w false prompt 0 prompt.length s
  else
    match deviceStep m w prompt 0 prompt.length true s with
    | (none, s) => (.failed, s)
    | (some s, _) => (.done, s)

/-! ## The calls -/

/-- The tokens of the prompt from `pos` on, one decode step each. -/
def decodeSuffix (mayFail : Bool) : (rest : List Nat) → Session K L → Result × Session K L
  | [], s => (.ok, s)
  | t :: rest, s =>
    let pos := s.checkpoint.length
    -- each token is in the checkpoint before the next poll
    if w.before pos then (.interrupted, { s with valid := true })
    else
      match if mayFail then w.fails pos else none with
      | some (kv, logits) => (.error, { s with kv := kv, logits := logits, valid := false })
      | none =>
        let r := m.evaluate s.kv pos [t]
        decodeSuffix mayFail rest { s with kv := r.1, logits := r.2, checkpoint := s.checkpoint ++ [t] }

/-- The resumed prefill of a long suffix. -/
def resume (prompt : List Nat) (s : Session K L) : Result × Session K L :=
  let start := s.checkpoint.length
  match prefillChunkedRange m c w prompt start (prompt.length - start) s with
  -- the frontier published last is taken for where the KV stands
  | (.cancelled, s) => (.interrupted, { s with valid := true })
  | (.failed, s) => (.error, { s with valid := false })
  | (.done, s) => (.ok, { s with checkpoint := prompt, valid := true })

/-- The last part of `ds4_session_sync`: prefill from token zero. -/
def rebuild (prompt : List Nat) (s : Session K L) : Result × Session K L :=
  let s := { s with valid := false, checkpoint := [] }
  match w.reset with
  | some kv => (.error, { s with kv := kv })
  | none =>
    let s := { s with kv := m.kvOf [] }
    if c.prefillCap < prompt.length then
      match prefillChunkedRange m c w prompt 0 prompt.length s with
      -- without a published chunk there is nothing to keep
      | (.cancelled, s) => (.interrupted, { s with valid := decide (0 < s.checkpoint.length) })
      | (.failed, s) => (.error, { s with valid := false })
      | (.done, s) => (.ok, { s with checkpoint := prompt, valid := true })
    else
      match prefillRawSwa m c w prompt s with
      | (.cancelled, s) => (.interrupted, s)
      | (.failed, s) => (.error, { s with valid := false })
      | (.done, s) => (.ok, { s with checkpoint := prompt, valid := true })

/-- `prefill_layer_major_cpu` on a fresh cache. -/
def rebuildCpu (prompt : List Nat) (s : Session K L) : Result × Session K L :=
  let r := m.evaluate (m.kvOf []) 0 prompt
  (.ok, { s with kv := r.1, logits := r.2, checkpoint := prompt, valid := true })

/-- The live checkpoint is a prefix of the prompt. -/
def Extends (prompt : List Nat) (s : Session K L) : Prop := s.valid ∧ s.checkpoint <+: prompt

instance (prompt : List Nat) (s : Session K L) : Decidable (Extends prompt s) := inferInstanceAs (Decidable (_ ∧ _))

/-- The length of the prompt is checked, and the caller asked, before anything is touched. -/
def Refused (prompt : List Nat) : Prop := prompt = [] ∨ c.ctxSize ≤ prompt.length

instance (prompt : List Nat) : Decidable (Refused c prompt) := inferInstanceAs (Decidable (_ ∨ _))

def sync (prompt : List Nat) (s : Session K L) : Result × Session K L :=
  if Refused c prompt then (.error, s)
  else if w.atEntry then (.interrupted, s)
  else if c.isCpu then
    if Extends prompt s then decodeSuffix m w false (prompt.drop s.checkpoint.length) s
    else rebuildCpu m prompt s
  else if Extends prompt s then
    let suffix := prompt.length - s.checkpoint.length
    if 0 < suffix ∧ c.resumeMin ≤ suffix then resume m c w prompt s
    else decodeSuffix m w true (prompt.drop s.checkpoint.length) s
  else rebuild m c w prompt s

/-- `fails` is the failing decode step, with what it leaves; none fails on the CPU. -/
def eval (token : Nat) (fails : Option (K × L)) (s : Session K L) : Result × Session K L :=
  let r := m.evaluate s.kv s.checkpoint.length [token]
  let s' := { s with kv := r.1, logits := r.2, checkpoint := s.checkpoint ++ [token] }
  -- the CPU path does not ask whether the session was valid
  if c.isCpu then (.ok, { s' with valid := true })
  else
    match fails with
    | some (kv, logits) => (.error, { s with kv := kv, logits := logits, valid := false })
    | none => (.ok, s')

def invalidate (s : Session K L) : Session K L := { s with valid := false, checkpoint := [] }

inductive Call (K L : Type) where
  | sync (prompt : List Nat) (w : Weather K L)
  | eval (token : Nat) (fails : Option (K × L))
  | invalidate

def call (s : Session K L) : Call K L → Result × Session K L
  | .sync prompt w => sync m c w prompt s
  | .eval token fails => eval m c token fails s
  | .invalidate => (.ok, invalidate s)

def apply (s : Session K L) (e : Call K L) : Session K L := (call m c s e).2

/-! ## What the calls promise -/

/-- The session stands at these tokens, as a cold prefill of them leaves it. -/
structure Live (ts : List Nat) (s : Session K L) : Prop where
  valid : s.valid = true
  checkpoint : s.checkpoint = ts
  kv : s.kv = m.kvOf ts
  logits : s.logits = m.logitsOf ts

/-- What a valid session is. -/
def Coherent (s : Session K L) : Prop := s.valid = true → s.checkpoint ≠ [] ∧ Live m s.checkpoint s

/-- What `ds4_session_sync` promises once it has begun. -/
def SyncPost (prompt : List Nat) : Result × Session K L → Prop
  | (.ok, s) => Live m prompt s
  | (.interrupted, s) => s.valid = false ∨ ∃ ts, ts <+: prompt ∧ Live m ts s
  | (.error, s) => s.valid = false

/-- No poll strictly inside the range is answered by a cancel. A poll that is not
    reached counts as unanswered. -/
def Quiet (pos n : Nat) : Prop := ∀ p, pos < p → p < pos + n → w.before p = false ∧ w.after p = false

/-- The calls that leave a valid session beside its KV: a resumed range of decode
    steps that is cancelled between its first and its last token, and a decode step
    of an invalid CPU session. -/
def Slips (s : Session K L) : Call K L → Prop
  | .sync prompt w =>
    c.isCpu = false ∧ Extends prompt s ∧ c.resumeMin ≤ prompt.length - s.checkpoint.length ∧
      useStreamingDecodePrefillRange c s.checkpoint.length (prompt.length - s.checkpoint.length) = true ∧
      ¬Quiet w s.checkpoint.length (prompt.length - s.checkpoint.length)
  | .eval _ _ => c.isCpu = true ∧ s.valid = false
  | .invalidate => False

/-- The calls that need nothing of the session: an invalidation, and a prompt that
    does not extend the live tokens. -/
def StartsOver (s : Session K L) : Call K L → Prop
  | .sync prompt w => ¬Refused c prompt ∧ w.atEntry = false ∧ ¬Extends prompt s
  | .eval _ _ => False
  | .invalidate => True

variable {m c w}

/-! ## Ranges -/

/-- Where a published range stands. Nothing is published at zero. -/
structure Frontier (m : Kernels K L) (prompt : List Nat) (pos : Nat) (s : Session K L) : Prop where
  kv : s.kv = m.kvOf (prompt.take pos)
  checkpoint : s.checkpoint = prompt.take pos
  live : 0 < pos → Live m (prompt.take pos) s

theorem frontier_note {prompt : List Nat} {pos : Nat} {s : Session K L} (hpos : 0 < pos) (hle : pos ≤ prompt.length)
    (hkv : s.kv = m.kvOf (prompt.take pos)) (hlogits : s.logits = m.logitsOf (prompt.take pos)) :
    Frontier m prompt pos (notePrefillProgress prompt pos s) := by
  rw [notePrefillProgress, if_pos ⟨hpos, hle⟩]
  exact ⟨hkv, rfl, fun _ => ⟨rfl, rfl, hkv, hlogits⟩⟩

/-- A frontier that is published again stays. -/
theorem Frontier.note {prompt : List Nat} {pos : Nat} {s : Session K L} (h : Frontier m prompt pos s) :
    Frontier m prompt pos (notePrefillProgress prompt pos s) := by
  rw [notePrefillProgress]
  split
  next hpos => exact ⟨h.kv, rfl, fun _ => ⟨rfl, rfl, h.kv, (h.live hpos.1).logits⟩⟩
  next => exact h

theorem deviceStep_cases {prompt : List Nat} {pos n : Nat} {withLogits : Bool} {s : Session K L}
    (hkv : s.kv = m.kvOf (prompt.take pos)) (hn : 0 < n) (hle : pos + n ≤ prompt.length) :
    (deviceStep m w prompt pos n withLogits s).1 = none ∨
    (deviceStep m w prompt pos n withLogits s).1 =
      some { s with kv := m.kvOf (prompt.take (pos + n)),
                    logits := if withLogits then m.logitsOf (prompt.take (pos + n)) else s.logits } := by
  have hlen : (prompt.take pos).length = pos := by
    rw [List.length_take]
    omega
  have hne : (prompt.drop pos).take n ≠ [] := by
    intro h
    have := congrArg List.length h
    simp only [List.length_take, List.length_drop, List.length_nil] at this
    omega
  have hstep := m.evaluate_kvOf (prompt.take pos) ((prompt.drop pos).take n) hne
  rw [hlen, ← List.take_add] at hstep
  rw [deviceStep]
  cases w.fails pos with
  | some left => exact .inl rfl
  | none =>
    refine .inr ?_
    simp only [hkv, hstep]

/-- The session after the whole range, published or not. -/
def Whole (m : Kernels K L) (progress : Bool) (prompt : List Nat) (limit : Nat) (s : Session K L) : Session K L :=
  note progress prompt limit { s with kv := m.kvOf (prompt.take limit), logits := m.logitsOf (prompt.take limit) }

/-- What a range of decode steps leaves. -/
def StreamPost (m : Kernels K L) (w : Weather K L) (progress : Bool) (prompt : List Nat) (pos left : Nat)
    (s : Session K L) : Ended × Session K L → Prop
  | (.done, s') => s' = Whole m progress prompt (pos + left) s
  | (.cancelled, s') => s' = Whole m progress prompt (pos + left) s ∨
      (s'.checkpoint = s.checkpoint ∧ s'.valid = s.valid ∧ (Quiet w pos left → w.before pos = true ∧ s' = s))
  | (.failed, _) => True

theorem streamLoop_spec {progress : Bool} {prompt : List Nat} {pos left : Nat} {s : Session K L}
    (hkv : s.kv = m.kvOf (prompt.take pos)) (hleft : 0 < left) (hle : pos + left ≤ prompt.length) :
    StreamPost m w progress prompt pos left s (streamLoop m w progress prompt pos left s) := by
  -- on the tokens left; a cancel behind the first of several is one inside the range
  induction left generalizing pos s with
  | zero => omega
  | succ left ih =>
    rw [streamLoop]
    split
    next hbefore => exact .inr ⟨rfl, rfl, fun _ => ⟨hbefore, rfl⟩⟩
    next =>
      have hstep := @deviceStep_cases _ _ m w prompt pos 1 (left == 0) s hkv Nat.one_pos (by omega)
      generalize deviceStep m w prompt pos 1 (left == 0) s = d at hstep
      obtain ⟨d, after⟩ := d
      obtain rfl | rfl := hstep
      · trivial
      · dsimp only
        cases left with
        | zero =>
          simp only [beq_self_eq_true, if_true]
          split
          · exact .inl rfl
          · exact rfl
        | succ left =>
          simp only [Nat.succ_ne_zero, beq_iff_eq, if_false]
          have hend : pos + 1 + (left + 1) = pos + (left + 1 + 1) := by omega
          split
          next hafter =>
            refine .inr ⟨rfl, rfl, fun hquiet => ?_⟩
            have hno := (hquiet (pos + 1) (by omega) (by omega)).2
            rw [hno] at hafter
            cases hafter
          next =>
            have hrest := @ih (pos + 1) { s with kv := m.kvOf (prompt.take (pos + 1)) } rfl (by omega) (by omega)
            generalize streamLoop m w progress prompt (pos + 1) (left + 1) _ = r at hrest
            obtain ⟨_ | _ | _, s'⟩ := r
            · rw [StreamPost, hend] at hrest
              exact hrest
            · trivial
            · rw [StreamPost, hend] at hrest
              obtain hwhole | ⟨hcheckpoint, hvalid, hquiet⟩ := hrest
              · exact .inl hwhole
              · refine .inr ⟨hcheckpoint, hvalid, fun h => ?_⟩
                have hbefore := (hquiet fun p hp hp' => h p (by omega) (by omega)).1
                rw [(h (pos + 1) (by omega) (by omega)).1] at hbefore
                cases hbefore

/-- What a range leaves behind a frontier at `start`. -/
def RangePost (m : Kernels K L) (prompt : List Nat) (start limit : Nat) (quiet : Prop) : Ended × Session K L → Prop
  | (.done, s) => Frontier m prompt limit s
  | (.cancelled, s) => (∃ pos, start ≤ pos ∧ Frontier m prompt pos s) ∨ (s.checkpoint = prompt.take start ∧ ¬quiet)
  | (.failed, _) => True

theorem decodeStreamingRange_spec {prompt : List Nat} {start n : Nat} {s : Session K L}
    (h : Frontier m prompt start s) (hn : 0 < n) (hle : start + n ≤ prompt.length) :
    RangePost m prompt start (start + n) (Quiet w start n) (decodeStreamingRange m w true prompt start n s) := by
  have hnote : Frontier m prompt start (note true prompt start s) := h.note
  have hspec := @streamLoop_spec _ _ m w true prompt start n _ hnote.kv hn hle
  have hwhole : Frontier m prompt (start + n) (Whole m true prompt (start + n) (note true prompt start s)) :=
    frontier_note (by omega) hle rfl rfl
  rw [decodeStreamingRange]
  generalize streamLoop m w true prompt start n (note true prompt start s) = r at hspec
  obtain ⟨_ | _ | _, s'⟩ := r
  · rw [StreamPost] at hspec
    rw [hspec]
    exact hwhole
  · trivial
  · obtain rfl | ⟨hcheckpoint, -, hquiet⟩ := hspec
    · exact .inl ⟨_, by omega, hwhole⟩
    · by_cases hq : Quiet w start n
      · obtain ⟨-, rfl⟩ := hquiet hq
        exact .inl ⟨start, (Nat.le_refl _), hnote⟩
      · exact .inr ⟨hcheckpoint.trans hnote.checkpoint, hq⟩

/-! ## Chunks -/

theorem chunkLen_le {start pos limit : Nat} : chunkLen c start pos limit ≤ limit - pos := Nat.min_le_left _ _

theorem chunkLen_pos {start pos limit : Nat} (hcap : c.prefillCap ≠ 0) (hraw : start ≠ 0 → c.rawCap ≠ 0)
    (hpos : pos < limit) : 0 < chunkLen c start pos limit := by
  have hmod := Nat.mod_lt pos (Nat.pos_of_ne_zero hcap)
  simp only [chunkLen]
  split <;> split <;> simp_all <;> omega

theorem chunkLoop_spec {prompt : List Nat} {start limit fuel pos : Nat} {s : Session K L}
    (hcap : c.prefillCap ≠ 0) (hraw : start ≠ 0 → c.rawCap ≠ 0) (hlimit : limit ≤ prompt.length)
    (hpos : pos ≤ limit) (hfuel : limit - pos ≤ fuel) (hstart : start ≤ pos) (h : Frontier m prompt pos s) :
    RangePost m prompt start limit True (chunkLoop m c w prompt start limit fuel pos s) := by
  induction fuel generalizing pos s with
  | zero =>
    obtain rfl : pos = limit := by omega
    exact h
  | succ fuel ih =>
    rw [chunkLoop]
    split
    next hle =>
      obtain rfl : pos = limit := by omega
      exact h
    next hlt =>
      split
      next => exact .inl ⟨pos, hstart, h⟩
      next =>
        have hn : 0 < chunkLen c start pos limit := chunkLen_pos hcap hraw (by omega)
        have hle : chunkLen c start pos limit ≤ limit - pos := chunkLen_le
        have hstep := @deviceStep_cases _ _ m w prompt pos _ true s h.kv hn (by omega)
        dsimp only
        generalize deviceStep m w prompt pos (chunkLen c start pos limit) true s = d at hstep
        obtain ⟨d, after⟩ := d
        obtain rfl | rfl := hstep
        · trivial
        · dsimp only
          have hnext : Frontier m prompt (pos + chunkLen c start pos limit)
              (notePrefillProgress prompt (pos + chunkLen c start pos limit)
                { s with kv := m.kvOf (prompt.take (pos + chunkLen c start pos limit)),
                         logits := if true = true then m.logitsOf (prompt.take (pos + chunkLen c start pos limit))
                           else s.logits }) :=
            frontier_note (by omega) (by omega) rfl rfl
          split
          · exact .inl ⟨_, by omega, hnext⟩
          · exact ih (by omega) (by omega) (by omega) hnext

theorem prefillChunkedRange_spec {prompt : List Nat} {start n : Nat} {s : Session K L} (h : Frontier m prompt start s) :
    RangePost m prompt start (start + n) (useStreamingDecodePrefillRange c start n = true → Quiet w start n)
      (prefillChunkedRange m c w prompt start n s) := by
  rw [prefillChunkedRange]
  split
  next => trivial
  next hn =>
    push Not at hn
    split
    next => trivial
    next =>
      split
      next => trivial
      next =>
        have hle : start + n ≤ prompt.length := by omega
        split
        next hstream =>
          have hspec := decodeStreamingRange_spec (w := w) h (Nat.pos_of_ne_zero hn.1) hle
          simpa only [hstream, forall_const] using hspec
        next hstream =>
          split
          next => trivial
          next hraw =>
            have hspec := @chunkLoop_spec _ _ m c w prompt start (start + n) n start _ hn.2
              (fun h0 h1 => hraw ⟨h0, h1⟩) hle (by omega) (by omega) (Nat.le_refl _) h.note
            simpa only [hstream, false_imp_iff, Bool.false_eq_true] using hspec

/-- What the prefill of a short prompt leaves. It publishes nothing. -/
def RawPost (m : Kernels K L) (prompt : List Nat) : Ended × Session K L → Prop
  | (.done, s) => s.kv = m.kvOf prompt ∧ s.logits = m.logitsOf prompt
  | (.cancelled, s) => s.valid = false
  | (.failed, _) => True

theorem prefillRawSwa_spec {prompt : List Nat} {s : Session K L} (hkv : s.kv = m.kvOf []) (hvalid : s.valid = false) :
    RawPost m prompt (prefillRawSwa m c w prompt s) := by
  rw [prefillRawSwa]
  split
  next => trivial
  next hlen =>
    push Not at hlen
    have hpos : 0 < prompt.length := Nat.pos_of_ne_zero hlen.1
    split
    next =>
      have hspec : StreamPost m w false prompt 0 prompt.length s (streamLoop m w false prompt 0 prompt.length s) :=
        streamLoop_spec (by simpa using hkv) hpos (by omega)
      have hwhole : Whole m false prompt (0 + prompt.length) s =
          { s with kv := m.kvOf prompt, logits := m.logitsOf prompt } := by
        simp [Whole, note]
      have hrange : decodeStreamingRange m w false prompt 0 prompt.length s =
          streamLoop m w false prompt 0 prompt.length s := rfl
      rw [hrange]
      generalize streamLoop m w false prompt 0 prompt.length s = r at hspec
      obtain ⟨_ | _ | _, s'⟩ := r
      · rw [StreamPost, hwhole] at hspec
        rw [hspec]
        exact ⟨rfl, rfl⟩
      · trivial
      · rw [StreamPost, hwhole] at hspec
        obtain rfl | ⟨-, hsame, -⟩ := hspec
        · exact hvalid
        · exact hsame.trans hvalid
    next =>
      have hstep := @deviceStep_cases _ _ m w prompt 0 prompt.length true s (by simpa using hkv) hpos (by omega)
      generalize deviceStep m w prompt 0 prompt.length true s = d at hstep
      obtain ⟨d, after⟩ := d
      obtain rfl | rfl := hstep
      · trivial
      · simp [RawPost]

/-! ## Calls -/

theorem Live.coherent {ts : List Nat} {s : Session K L} (h : Live m ts s) (hne : ts ≠ []) : Coherent m s := by
  intro _
  rw [h.checkpoint]
  exact ⟨hne, h⟩

theorem coherent_of_invalid {s : Session K L} (h : s.valid = false) : Coherent m s := fun hv => by
  rw [h] at hv
  cases hv

/-- What a call that has begun leaves: its promise, and a coherent session. -/
def Kept (m : Kernels K L) (prompt : List Nat) (r : Result × Session K L) : Prop :=
  SyncPost m prompt r ∧ Coherent m r.2

theorem kept_ok {prompt : List Nat} {s : Session K L} (hne : prompt ≠ []) (h : Live m prompt s) :
    Kept m prompt (.ok, s) := ⟨h, h.coherent hne⟩

theorem kept_error {prompt : List Nat} {s : Session K L} (h : s.valid = false) : Kept m prompt (.error, s) :=
  ⟨h, coherent_of_invalid h⟩

theorem kept_interrupted {prompt ts : List Nat} {s : Session K L} (hne : ts ≠ []) (hts : ts <+: prompt) (h : Live m ts s) :
    Kept m prompt (.interrupted, s) := ⟨.inr ⟨ts, hts, h⟩, h.coherent hne⟩

theorem Live.eval {ts : List Nat} {s : Session K L} (h : Live m ts s) (t : Nat) :
    m.evaluate s.kv s.checkpoint.length [t] = (m.kvOf (ts ++ [t]), m.logitsOf (ts ++ [t])) := by
  rw [h.kv, h.checkpoint]
  exact m.evaluate_kvOf ts [t] (by simp)

theorem decodeSuffix_kept {mayFail : Bool} {rest ts : List Nat} {s : Session K L} (hne : ts ≠ []) (h : Live m ts s) :
    Kept m (ts ++ rest) (decodeSuffix m w mayFail rest s) := by
  induction rest generalizing ts s with
  | nil =>
    rw [List.append_nil]
    exact kept_ok hne h
  | cons t rest ih =>
    rw [decodeSuffix]
    split
    next => exact kept_interrupted hne (List.prefix_append _ _) ⟨rfl, h.checkpoint, h.kv, h.logits⟩
    next =>
      generalize (if mayFail = true then w.fails s.checkpoint.length else none) = f
      cases f with
      | some left => exact kept_error rfl
      | none =>
        dsimp only
        rw [h.eval t]
        have hnext : Live m (ts ++ [t])
            { s with kv := m.kvOf (ts ++ [t]),
                     logits := m.logitsOf (ts ++ [t]),
                     checkpoint := s.checkpoint ++ [t] } := ⟨h.valid, by rw [h.checkpoint], rfl, rfl⟩
        have hrest := ih (by simp) hnext
        rwa [List.append_assoc] at hrest

theorem take_ne_nil {prompt : List Nat} {pos : Nat} (hne : prompt ≠ []) (hpos : 0 < pos) : prompt.take pos ≠ [] := by
  intro h
  rcases List.take_eq_nil_iff.mp h with h0 | h0
  · omega
  · exact hne h0

theorem resume_kept {prompt : List Nat} {s : Session K L} (hne : prompt ≠ []) (hs : Coherent m s) (hext : Extends prompt s)
    (hquiet : useStreamingDecodePrefillRange c s.checkpoint.length (prompt.length - s.checkpoint.length) = true →
      Quiet w s.checkpoint.length (prompt.length - s.checkpoint.length)) :
    Kept m prompt (resume m c w prompt s) := by
  -- the checkpoint is a frontier of the prompt, and one that is not at zero
  obtain ⟨hnonempty, hlive⟩ := hs hext.1
  have hpos : 0 < s.checkpoint.length := List.length_pos_iff.mpr hnonempty
  have htake : prompt.take s.checkpoint.length = s.checkpoint := (List.prefix_iff_eq_take.mp hext.2).symm
  have hfrontier : Frontier m prompt s.checkpoint.length s := by
    refine ⟨?_, htake.symm, fun _ => ?_⟩
    · rw [htake]
      exact hlive.kv
    · rw [htake]
      exact hlive
  have hlimit : s.checkpoint.length + (prompt.length - s.checkpoint.length) = prompt.length := by
    have := hext.2.length_le
    omega
  have hspec := prefillChunkedRange_spec (c := c) (w := w) (n := prompt.length - s.checkpoint.length) hfrontier
  rw [hlimit] at hspec
  rw [resume]
  generalize prefillChunkedRange m c w prompt s.checkpoint.length (prompt.length - s.checkpoint.length) s = r at hspec
  obtain ⟨_ | _ | _, s'⟩ := r
  · have hlive' := (show Frontier m prompt prompt.length s' from hspec).live (by omega)
    rw [List.take_length] at hlive'
    exact kept_ok hne ⟨rfl, rfl, hlive'.kv, hlive'.logits⟩
  · exact kept_error rfl
  · obtain ⟨pos, hle, hf⟩ | ⟨-, hslip⟩ := hspec
    · have hlive' := hf.live (by omega)
      exact kept_interrupted (take_ne_nil hne (by omega)) (List.take_prefix _ _)
        ⟨rfl, hlive'.checkpoint, hlive'.kv, hlive'.logits⟩
    · exact absurd hquiet hslip

theorem rebuild_kept {prompt : List Nat} {s : Session K L} (hne : prompt ≠ []) : Kept m prompt (rebuild m c w prompt s) := by
  have hlen : 0 < prompt.length := List.length_pos_iff.mpr hne
  rw [rebuild]
  dsimp only
  cases w.reset with
  | some kv => exact kept_error rfl
  | none =>
    dsimp only
    split
    next =>
      have hspec := @prefillChunkedRange_spec _ _ m c w prompt 0 prompt.length
        { s with valid := false, checkpoint := [], kv := m.kvOf [] } ⟨by simp, by simp, fun h => by omega⟩
      rw [Nat.zero_add] at hspec
      generalize prefillChunkedRange m c w prompt 0 prompt.length _ = r at hspec
      obtain ⟨_ | _ | _, s'⟩ := r
      · have hlive := (show Frontier m prompt prompt.length s' from hspec).live hlen
        rw [List.take_length] at hlive
        exact kept_ok hne ⟨rfl, rfl, hlive.kv, hlive.logits⟩
      · exact kept_error rfl
      · -- a frontier that was published is kept, and none makes the session invalid
        have hinvalid : s'.checkpoint = [] →
            Kept m prompt (.interrupted, { s' with valid := decide (0 < s'.checkpoint.length) }) := by
          intro h0
          have hfalse : decide (0 < s'.checkpoint.length) = false := by simp [h0]
          exact ⟨.inl hfalse, coherent_of_invalid hfalse⟩
        obtain ⟨pos, -, hf⟩ | ⟨h0, -⟩ := hspec
        · rcases Nat.eq_zero_or_pos pos with rfl | hpos
          · exact hinvalid (by rw [hf.checkpoint, List.take_zero])
          · have hlive := hf.live hpos
            have htake := take_ne_nil hne hpos
            have hvalid : decide (0 < s'.checkpoint.length) = true := by
              rw [hlive.checkpoint]
              exact decide_eq_true (List.length_pos_iff.mpr htake)
            exact kept_interrupted htake (List.take_prefix _ _) ⟨hvalid, hlive.checkpoint, hlive.kv, hlive.logits⟩
        · exact hinvalid (by rw [h0, List.take_zero])
    next =>
      have hspec := @prefillRawSwa_spec _ _ m c w prompt
        { s with valid := false, checkpoint := [], kv := m.kvOf [] } rfl rfl
      generalize prefillRawSwa m c w prompt _ = r at hspec
      obtain ⟨_ | _ | _, s'⟩ := r
      · exact kept_ok hne ⟨rfl, rfl, hspec.1, hspec.2⟩
      · exact kept_error rfl
      · exact ⟨.inl hspec, coherent_of_invalid hspec⟩

theorem rebuildCpu_kept {prompt : List Nat} {s : Session K L} (hne : prompt ≠ []) : Kept m prompt (rebuildCpu m prompt s) := by
  have heval := m.evaluate_kvOf [] prompt hne
  rw [List.nil_append, List.length_nil] at heval
  rw [rebuildCpu, heval]
  exact kept_ok hne ⟨rfl, rfl, rfl, rfl⟩

/-- A session that the prompt does not extend is rebuilt, whatever tokens and KV it has. -/
theorem sync_of_fresh {prompt : List Nat} {s : Session K L} (hrefused : ¬Refused c prompt) (hentry : w.atEntry = false)
    (hext : ¬Extends prompt s) :
    sync m c w prompt s = if c.isCpu then rebuildCpu m prompt s else rebuild m c w prompt s := by
  rw [sync, if_neg hrefused, hentry, if_neg Bool.false_ne_true, if_neg hext, if_neg hext]

theorem sync_fresh_kept {prompt : List Nat} {s : Session K L} (hrefused : ¬Refused c prompt) (hentry : w.atEntry = false)
    (hext : ¬Extends prompt s) : Kept m prompt (sync m c w prompt s) := by
  have hne : prompt ≠ [] := fun h => hrefused (.inl h)
  rw [sync_of_fresh hrefused hentry hext]
  split
  · exact rebuildCpu_kept hne
  · exact rebuild_kept hne

theorem sync_extends_kept {prompt : List Nat} {s : Session K L} (hs : Coherent m s) (hslip : ¬Slips c s (.sync prompt w))
    (hrefused : ¬Refused c prompt) (hentry : w.atEntry = false) (hext : Extends prompt s) :
    Kept m prompt (sync m c w prompt s) := by
  have hne : prompt ≠ [] := fun h => hrefused (.inl h)
  have hdecode : ∀ mayFail, Kept m prompt (decodeSuffix m w mayFail (prompt.drop s.checkpoint.length) s) := by
    intro mayFail
    obtain ⟨hnonempty, hlive⟩ := hs hext.1
    have hkept := @decodeSuffix_kept _ _ m w mayFail (prompt.drop s.checkpoint.length) _ _ hnonempty hlive
    rwa [List.prefix_iff_eq_append.mp hext.2] at hkept
  rw [sync, if_neg hrefused, hentry, if_neg Bool.false_ne_true, if_pos hext, if_pos hext]
  split
  next => exact hdecode false
  next hgpu =>
    dsimp only
    split
    next hlong =>
      refine resume_kept hne hs hext fun hstream => ?_
      by_contra hquiet
      exact hslip ⟨by simpa using hgpu, hext, hlong.2, hstream, hquiet⟩
    next => exact hdecode true

theorem sync_kept {prompt : List Nat} {s : Session K L} (hs : Coherent m s ∨ ¬Extends prompt s)
    (hslip : ¬Slips c s (.sync prompt w)) (hrefused : ¬Refused c prompt) (hentry : w.atEntry = false) :
    Kept m prompt (sync m c w prompt s) := by
  by_cases hext : Extends prompt s
  · exact sync_extends_kept (hs.resolve_right (not_not.mpr hext)) hslip hrefused hentry hext
  · exact sync_fresh_kept hrefused hentry hext

theorem eval_coherent {token : Nat} {fails : Option (K × L)} {s : Session K L} (hs : Coherent m s)
    (hslip : ¬Slips c s (.eval token fails)) : Coherent m (eval m c token fails s).2 := by
  have hnext : s.valid = true → Coherent m
      { s with kv := (m.evaluate s.kv s.checkpoint.length [token]).1,
               logits := (m.evaluate s.kv s.checkpoint.length [token]).2,
               checkpoint := s.checkpoint ++ [token], valid := true } := by
    intro hv
    obtain ⟨-, hlive⟩ := hs hv
    rw [hlive.eval token]
    exact fun _ => ⟨by simp, rfl, rfl, rfl, rfl⟩
  unfold eval
  dsimp only
  split
  next hcpu => exact hnext (by simpa [Slips, hcpu] using hslip)
  next =>
    cases fails with
    | some left => exact coherent_of_invalid rfl
    | none =>
      intro hv
      have hlive := (hnext hv rfl).2
      exact ⟨by simp, hv, rfl, hlive.kv, hlive.logits⟩

theorem apply_coherent {s : Session K L} (e : Call K L) (hs : Coherent m s ∨ StartsOver c s e) (hslip : ¬Slips c s e) :
    Coherent m (apply m c s e) := by
  cases e with
  | sync prompt w =>
    show Coherent m (sync m c w prompt s).2
    rcases hs with hs | ⟨hrefused, hentry, hext⟩
    · by_cases hrefused : Refused c prompt
      · rw [sync, if_pos hrefused]
        exact hs
      · cases hentry : w.atEntry with
        | true =>
          rw [sync, if_neg hrefused, hentry, if_pos rfl]
          exact hs
        | false => exact (sync_kept (.inl hs) hslip hrefused hentry).2
    · exact (sync_fresh_kept hrefused hentry hext).2
  | eval token fails => exact eval_coherent (hs.resolve_right id) hslip
  | invalidate => exact coherent_of_invalid rfl

/-- A run in which every slip is followed by a fresh start. -/
theorem run_coherent {s : Session K L} (hs : s.valid = false) {calls : List (Call K L)}
    (h : ¬Since (apply m c) (Slips c) (StartsOver c) s calls) : Coherent m (run (apply m c) s calls) := by
  -- on the run from its end: the last call was a fresh start, or nothing was owed before it
  induction calls using List.reverseRecOn with
  | nil => exact coherent_of_invalid hs
  | append_singleton calls e ih =>
    rw [since_concat, not_or, not_and_or, not_not] at h
    rw [run_concat]
    exact apply_coherent e (h.2.imp_left ih) h.1

/-- From a session without a checkpoint, along every run whose slips are all followed
    by a fresh start. -/
theorem session_sync_coherent (m : Kernels K L) (c : Config) (w : Weather K L) (s : Session K L) (hs : s.valid = false)
    (calls : List (Call K L)) (prompt : List Nat)
    (h : ¬Since (apply m c) (Slips c) (StartsOver c) s (calls ++ [.sync prompt w])) :
    let live := run (apply m c) s calls
    let r := sync m c w prompt live
    (Refused c prompt → r = (.error, live)) ∧
    (¬Refused c prompt → w.atEntry = true → r = (.interrupted, live)) ∧
    (¬Refused c prompt → w.atEntry = false → SyncPost m prompt r) ∧
    Coherent m r.2 ∧
    (r.2.valid = false → ∀ next w', ¬Refused c next → w'.atEntry = false →
      sync m c w' next r.2 = if c.isCpu then rebuildCpu m next r.2 else rebuild m c w' next r.2) := by
  intro live r
  have hafter : Coherent m r.2 := by
    have hrun := run_coherent hs h
    rwa [run_concat] at hrun
  rw [since_concat, not_or, not_and_or, not_not] at h
  obtain ⟨hslip, hcalls⟩ := h
  have hlive : Coherent m live ∨ ¬Extends prompt live := hcalls.imp (run_coherent hs) fun hfresh => hfresh.2.2
  refine ⟨fun hrefused => ?_, fun hrefused hentry => ?_, fun hrefused hentry => (sync_kept hlive hslip hrefused hentry).1,
    hafter, fun hinvalid next w' hrefused hentry => ?_⟩
  · show sync m c w prompt live = _
    rw [sync, if_pos hrefused]
  · show sync m c w prompt live = _
    rw [sync, if_neg hrefused, if_pos hentry]
  · have hext : ¬Extends next r.2 := by simp [Extends, hinvalid]
    exact sync_of_fresh hrefused hentry hext

/-- Kernels whose KV is the tokens it was built from. -/
def tally : Kernels (List Nat) (List Nat) where
  kvOf := id
  logitsOf := id
  evaluate kv _ us := (kv ++ us, kv ++ us)
  evaluate_kvOf _ _ _ := rfl

/-- A device with room for short prompts. -/
def roomy : Config := ⟨false, 64, 8, 8, 4, false, false, 0, false⟩

def calm : Weather (List Nat) (List Nat) := ⟨false, fun _ => false, fun _ => false, none, fun _ => none⟩

def unsynced : Session (List Nat) (List Nat) := ⟨[], false, [], []⟩

theorem turn_after_a_turn :
    SyncPost tally [1, 2, 3, 4] (sync tally roomy calm [1, 2, 3, 4]
      (run (apply tally roomy) unsynced [.sync [1, 2] calm, .eval 3 none])) :=
  (session_sync_coherent tally roomy calm unsynced rfl [.sync [1, 2] calm, .eval 3 none] [1, 2, 3, 4]
    (by simp [Since, Slips, roomy, useStreamingDecodePrefillRange, useStreamingDecodePrefill])).2.2.1
    (by decide) rfl

/-- A call that is cancelled at its entry leaves another prompt's tokens valid. -/
theorem cancelled_at_entry_keeps_other_tokens :
    ¬SyncPost tally [3] (sync tally roomy { calm with atEntry := true } [3]
      (run (apply tally roomy) unsynced [.sync [1, 2] calm])) := by
  have hsync : sync tally roomy { calm with atEntry := true } [3]
      (run (apply tally roomy) unsynced [.sync [1, 2] calm]) = (.interrupted, ⟨[1, 2], true, [1, 2], [1, 2]⟩) := rfl
  rw [hsync]
  rintro (hvalid | ⟨ts, hts, hlive⟩)
  · cases hvalid
  · rw [← hlive.checkpoint] at hts
    exact absurd hts (by decide)

end Ds4.Engine.Sync
