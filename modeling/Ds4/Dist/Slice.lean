import Mathlib.Algebra.Group.Nat.Defs
import Mathlib.Data.List.Basic

/- The session as the distributed runtime sees it: a token timeline, its validity
   flag, and what the KV tensors hold. The KV is symbolic: the tokens its rows were
   computed from, or what a failed operation left behind. What the accelerator
   decides (an evaluation, a reset or a restore that fails) is an argument.

   Correspondence (C ↔ Lean):
     dist_token_hash_update                ↔ distTokenHashUpdate
     dist_token_hash_update_span           ↔ TokenHash.updateSpan
     dist_token_hash_prefix                ↔ TokenHash.ofPrefix
     ds4_session_slice_check_timeline      ↔ SliceSession.checkTimeline
     ds4_session_slice_commit_timeline     ↔ SliceSession.commitTimeline
     ds4_session_eval_layer_slice          ↔ SliceSession.evalLayerSlice
     ds4_session_layer_slice_reset         ↔ SliceSession.layerSliceReset
     ds4_session_load_layer_payload        ↔ SliceSession.loadLayerPayload -/
namespace Ds4.Dist

/-! ## The running token hash -/

/-- A hash carried along a token list, one token after the other. -/
structure TokenHash (H : Type) where
  init : H
  update : H → Nat → H

variable {H : Type}

def TokenHash.updateSpan (th : TokenHash H) (h : H) (tokens : List Nat) : H := tokens.foldl th.update h

def TokenHash.ofPrefix (th : TokenHash H) (tokens : List Nat) : H := th.updateSpan th.init tokens

theorem TokenHash.updateSpan_ofPrefix (th : TokenHash H) (before span : List Nat) :
    th.updateSpan (th.ofPrefix before) span = th.ofPrefix (before ++ span) :=
  List.foldl_append.symm

/-- FNV-1a over the four bytes of the token, low byte first. -/
def distTokenHashUpdate (h : UInt64) (token : Nat) : UInt64 :=
  (List.range 4).foldl (fun h i => (h ^^^ UInt64.ofNat (token % 2 ^ 32 / 256 ^ i % 256)) * 1099511628211) h

/-- The hash the runtime computes. -/
def fnv : TokenHash UInt64 := ⟨1469598103934665603, distTokenHashUpdate⟩

example : fnv.ofPrefix [1, 70000] = 11966606292863652804 := by decide

/-! ## The session -/

/-- What the KV tensors hold. -/
inductive Kv where
  | held (tokens : List Nat)
  | damaged
  deriving DecidableEq

/-- The rows of `span` written at `pos0`: sound only where the rows so far end there. -/
def Kv.extend (kv : Kv) (pos0 : Nat) (span : List Nat) : Kv :=
  match kv with
  | .held tokens => if tokens.length = pos0 then .held (tokens ++ span) else .damaged
  | .damaged => .damaged

structure SliceSession where
  checkpoint : List Nat
  checkpointValid : Bool
  kv : Kv
  deriving DecidableEq

/-- `ds4_session_create`: nothing evaluated, nothing restored. -/
def SliceSession.create : SliceSession := ⟨[], false, .held []⟩

/-- How an operation on the tensors ends: `refused` before it touches anything
    (a layer range, a missing weight, the prefill cap, a header), `invalidated` with
    the tensors as they were but the flag cleared, `failed` midway. -/
inductive Outcome where
  | done
  | refused
  | invalidated
  | failed
  deriving DecidableEq

namespace SliceSession

def checkTimeline (ctxSize : Nat) (s : SliceSession) (nTokens pos0 : Nat) : Bool :=
  nTokens != 0 && pos0 ≤ ctxSize && nTokens ≤ ctxSize - pos0 &&
    if s.checkpointValid then s.checkpoint.length == pos0 else pos0 == 0

def commitTimeline (s : SliceSession) (tokens : List Nat) : SliceSession :=
  { s with checkpoint := s.checkpoint ++ tokens, checkpointValid := true }

/-- The new session, and whether the span was evaluated. -/
def evalLayerSlice (ctxSize : Nat) (s : SliceSession) (tokens : List Nat) (pos0 : Nat) (outcome : Outcome) :
    SliceSession × Bool :=
  if !s.checkTimeline ctxSize tokens.length pos0 then (s, false)
  else
    match outcome with
    | .done => ({ s with kv := s.kv.extend pos0 tokens }.commitTimeline tokens, true)
    | .refused => (s, false)
    | .invalidated => ({ s with checkpointValid := false }, false)
    | .failed => ({ s with checkpointValid := false, kv := .damaged }, false)

/-- `ds4_session_invalidate` first, then the graph state. -/
def layerSliceReset (_s : SliceSession) (ok : Bool) : SliceSession :=
  ⟨[], false, if ok then .held [] else .damaged⟩

/-- The shard of the KV of `tokens` read in. -/
def loadLayerPayload (s : SliceSession) (tokens : List Nat) (outcome : Outcome) : SliceSession × Bool :=
  match outcome with
  | .done => (⟨tokens, true, .held tokens⟩, true)
  | .refused => (s, false)
  | .invalidated => ({ s with checkpointValid := false }, false)
  | .failed => ({ s with checkpointValid := false, kv := .damaged }, false)

/-! ## What holds of every session -/

/-- The rows of an undamaged KV are the timeline's. -/
structure Tracks (s : SliceSession) : Prop where
  timeline : ∀ tokens, s.kv = .held tokens → s.checkpoint = tokens

/-- A session with its flag set was never evaluated on a damaged KV. -/
structure Sound (s : SliceSession) : Prop extends s.Tracks where
  valid : s.checkpointValid = true → s.kv = .held s.checkpoint

variable {s : SliceSession} {ctxSize pos0 : Nat} {tokens : List Nat} {outcome : Outcome}

theorem sound_create : Sound create := ⟨⟨fun _ h => Kv.held.inj h⟩, fun h => Bool.noConfusion h⟩

theorem sound_reset (s : SliceSession) (ok : Bool) : Sound (s.layerSliceReset ok) := by
  refine ⟨⟨fun tokens h => ?_⟩, fun h => Bool.noConfusion h⟩
  cases ok with
  | true => exact Kv.held.inj h
  | false => exact Kv.noConfusion h

theorem Sound.load (h : Sound s) (tokens : List Nat) (outcome : Outcome) :
    Sound (s.loadLayerPayload tokens outcome).1 := by
  cases outcome with
  | done => exact ⟨⟨fun _ hk => Kv.held.inj hk⟩, fun _ => rfl⟩
  | refused => exact h
  | invalidated => exact ⟨⟨h.timeline⟩, fun hv => Bool.noConfusion hv⟩
  | failed => exact ⟨⟨fun _ hk => Kv.noConfusion hk⟩, fun hv => Bool.noConfusion hv⟩

/-- Everything an evaluated span says: the checks passed and the timeline grew by it. -/
theorem evalLayerSlice_true {s' : SliceSession} (h : s.evalLayerSlice ctxSize tokens pos0 outcome = (s', true)) :
    outcome = .done ∧ s.checkTimeline ctxSize tokens.length pos0 = true ∧
      s' = ⟨s.checkpoint ++ tokens, true, s.kv.extend pos0 tokens⟩ := by
  simp only [evalLayerSlice] at h
  split_ifs at h with hc
  · exact Bool.noConfusion (Prod.mk.inj h).2
  cases outcome with
  | done => exact ⟨rfl, by simpa using hc, (Prod.mk.inj h).1.symm⟩
  | refused => exact Bool.noConfusion (Prod.mk.inj h).2
  | invalidated => exact Bool.noConfusion (Prod.mk.inj h).2
  | failed => exact Bool.noConfusion (Prod.mk.inj h).2

/-- A span that was not evaluated leaves a sound session. -/
theorem Sound.eval_false {s' : SliceSession} (hs : Sound s)
    (h : s.evalLayerSlice ctxSize tokens pos0 outcome = (s', false)) :
    Sound s' ∧ s'.checkpoint = s.checkpoint ∧ (s'.kv = s.kv ∨ s'.kv = .damaged) := by
  simp only [evalLayerSlice] at h
  split_ifs at h with hc
  · rw [← (Prod.mk.inj h).1]
    exact ⟨hs, rfl, .inl rfl⟩
  cases outcome with
  | done => exact Bool.noConfusion (Prod.mk.inj h).2
  | refused =>
    rw [← (Prod.mk.inj h).1]
    exact ⟨hs, rfl, .inl rfl⟩
  | invalidated =>
    rw [← (Prod.mk.inj h).1]
    exact ⟨⟨⟨hs.timeline⟩, fun hv => Bool.noConfusion hv⟩, rfl, .inl rfl⟩
  | failed =>
    rw [← (Prod.mk.inj h).1]
    exact ⟨⟨⟨fun _ hk => Kv.noConfusion hk⟩, fun hv => Bool.noConfusion hv⟩, rfl, .inr rfl⟩

theorem checkTimeline_pos (h : s.checkTimeline ctxSize tokens.length pos0 = true) :
    if s.checkpointValid then s.checkpoint.length = pos0 else pos0 = 0 := by
  simp only [checkTimeline, Bool.and_eq_true] at h
  have h := h.2
  split_ifs at h ⊢ with hv
  · exact beq_iff_eq.mp h
  · exact beq_iff_eq.mp h

theorem Sound.extend (hs : s.kv = .held s.checkpoint) (hpos : s.checkpoint.length = pos0) :
    Sound ⟨s.checkpoint ++ tokens, true, s.kv.extend pos0 tokens⟩ := by
  have hkv : s.kv.extend pos0 tokens = .held (s.checkpoint ++ tokens) := by simp [hs, Kv.extend, hpos]
  exact ⟨⟨fun t ht => Kv.held.inj (hkv.symm.trans ht)⟩, fun _ => hkv⟩

end SliceSession

end Ds4.Dist
