import Mathlib.Algebra.GroupWithZero.Nat
import Ds4.Engine.Store

/- The session payload of ds4.c: what a checkpoint file holds of a session, its
   writer, its reader and its predicted size.

   Correspondence (C ↔ Lean):
     `payload_put_u32`, `payload_get_u32`       ↔ `putU32`, `getU32`
     `payload_write_tensor_span`(`_f16_as_f32`) ↔ `payloadWriteTensorSpan`(`F16AsF32`)
     `payload_read_bytes`, `payload_read_u32`   ↔ `payloadReadBytes`, `payloadReadInto`, `payloadReadU32`
     `payload_read_tensor_span`(`_f32_as_f16`)  ↔ `payloadReadTensorSpan`(`F32AsF16`)
     `ds4_session_payload_bytes`                ↔ `Session.payloadBytes`
     `ds4_session_save_payload`                 ↔ `Session.savePayload`
     `ds4_session_load_payload`                 ↔ `Session.loadPayload`
   `compF16` is the process-wide `DS4_GPU_ATTN_COMP_CACHE_F16`. A write to the
   file, a tensor copy and a synchronisation succeed; a file that ends early is
   an error, and what was read into the session before it stays there. -/
namespace Ds4.Engine
open Ds4 Bytes

/-! ## Words -/

def putU32 (v : Nat) : Bytes := [UInt8.ofNat v, UInt8.ofNat (v / 256), UInt8.ofNat (v / 65536), UInt8.ofNat (v / 16777216)]

def getU32 (b : Bytes) : Nat :=
  (b.getD 0 0).toNat + (b.getD 1 0).toNat * 256 + (b.getD 2 0).toNat * 65536 + (b.getD 3 0).toNat * 16777216

@[simp] theorem length_putU32 (v : Nat) : (putU32 v).length = 4 := rfl

theorem getU32_putU32 (v : Nat) : getU32 (putU32 v) = v % 2 ^ 32 := by
  simp [getU32, putU32]
  omega

/-- The float bytes of half bytes, one element after the other. -/
def widen : Bytes → Bytes
  | a :: b :: r => putU32 (f16ToF32 (a.toNat + b.toNat * 256)) ++ widen r
  | _ => []

def narrow : Bytes → Bytes
  | a :: b :: c :: d :: r =>
    let h := f32ToF16 (getU32 [a, b, c, d])
    UInt8.ofNat h :: UInt8.ofNat (h / 256) :: narrow r
  | _ => []

theorem unitwise_widen : Unitwise widen 2 4 := by
  constructor
  · intro k
    induction k with
    | zero =>
      intro x y hx
      obtain rfl : x = [] := by simpa using hx
      rfl
    | succ k ih =>
      intro x y hx
      match x, hx with
      | a :: b :: r, hx =>
        rw [List.cons_append, List.cons_append, widen, widen, ih r y (by simp at hx; omega), List.append_assoc]
      | [_], hx => simp at hx; omega
      | [], hx => simp at hx
  · intro k
    induction k with
    | zero =>
      intro x hx
      obtain rfl : x = [] := by simpa using hx
      rfl
    | succ k ih =>
      intro x hx
      match x, hx with
      | a :: b :: r, hx =>
        rw [widen, List.length_append, ih r (by simp at hx; omega), length_putU32]
        omega
      | [_], hx => simp at hx; omega
      | [], hx => simp at hx

theorem unitwise_narrow : Unitwise narrow 4 2 := by
  constructor
  · intro k
    induction k with
    | zero =>
      intro x y hx
      obtain rfl : x = [] := by simpa using hx
      rfl
    | succ k ih =>
      intro x y hx
      match x, hx with
      | a :: b :: c :: d :: r, hx =>
        simp only [List.cons_append, narrow]
        rw [ih r y (by simp at hx; omega)]
      | [_, _, _], hx | [_, _], hx | [_], hx => simp at hx; omega
      | [], hx => simp at hx
  · intro k
    induction k with
    | zero =>
      intro x hx
      obtain rfl : x = [] := by simpa using hx
      rfl
    | succ k ih =>
      intro x hx
      match x, hx with
      | a :: b :: c :: d :: r, hx =>
        simp only [narrow, List.length_cons, ih r (by simp at hx; omega)]
        omega
      | [_, _, _], hx | [_, _], hx | [_], hx => simp at hx; omega
      | [], hx => simp at hx

/-! ## Writing -/

/-- `DS4_SESSION_IO_CHUNK`. -/
def sessionIoChunk : Nat := 8 * 1024 * 1024

/-- How many elements the two halves of the conversion buffer take. -/
def convertElems : Nat := sessionIoChunk / (2 + 4) / 2 * 2

def payloadWriteTensorSpan (b : Bytes) (off n : Nat) : Except String Bytes :=
  if off > b.length ∨ n > b.length - off then .error "session tensor is smaller than the payload"
  else .ok (copyOut id 1 sessionIoChunk b off n)

def payloadWriteTensorSpanF16AsF32 (b : Bytes) (off count : Nat) : Except String Bytes :=
  if off > b.length ∨ count * 2 > b.length - off then .error "session tensor is smaller than the F16 payload"
  else .ok (copyOut widen 2 convertElems b off count)

section
variable {m : Shape} {ctx : Nat}

def Session.rawCap (s : Session m ctx) : Nat :=
  match s.cache with
  | .cpu _ => defaultRawCap m ctx
  | .graph g => g.rawCap

def Session.compCap (s : Session m ctx) : Nat :=
  match s.cache with
  | .cpu _ => sessionCpuCompCap m ctx
  | .graph _ => graphCompCap m ctx

/-- `DS4_SESSION_PAYLOAD_MAGIC`, "DSV4". -/
def payloadMagic : Nat := 0x34565344

def payloadVersion : Nat := 2

/-- The `DS4_SESSION_PAYLOAD_U32_FIELDS` words at the front. The ring of a CPU
    session is its window. -/
def Session.payloadHeader (s : Session m ctx) : List Nat :=
  [payloadMagic, payloadVersion, ctx, s.prefillCap, s.rawCap, defaultRawCap m ctx, s.compCap,
    s.checkpoint.length, m.nLayer, m.nHeadDim, m.nIndexerHeadDim, m.nVocab, s.rawLive]

def Session.nComp (s : Session m ctx) (il : Nat) : Nat :=
  match s.cache with
  | .cpu layer => (layer il).nComp
  | .graph g => (g.layer il).nComp

def Session.nIndexComp (s : Session m ctx) (il : Nat) : Nat :=
  match s.cache with
  | .cpu layer => (layer il).nIndexComp
  | .graph g => (g.layer il).nIndexComp

def Session.layerLiveBytes (s : Session m ctx) (il : Nat) : Nat :=
  s.rawLive * m.nHeadDim * 4 +
    if m.ratio il = 0 then 0
    else s.nComp il * m.nHeadDim * 4 + layerAttnStateBytes m (m.ratio il) + layerAttnStateBytes m (m.ratio il) +
      if m.ratio il = 4 then
        s.nIndexComp il * m.nIndexerHeadDim * 4 + layerIndexStateBytes m (m.ratio il) +
          layerIndexStateBytes m (m.ratio il)
      else 0

def Session.payloadBytes (s : Session m ctx) : Nat :=
  if s.checkpointValid = false then 0
  else 13 * 4 + s.checkpoint.length * 4 + m.nVocab * 4 + m.nLayer * 4 + m.nLayer * 4 +
    ((List.range m.nLayer).map s.layerLiveBytes).sum

/-- Host memory is written as it is. -/
def saveCpuLayer (rawLive : Nat) {ratio : Nat} (l : CpuLayer m ctx ratio) : Except String Bytes :=
  if rawLive > l.nRaw then .error "CPU session raw cache has fewer live rows than checkpoint"
  else .ok <| span l.rawCache.bytes ((l.nRaw - rawLive) * rowBytes m) (rawLive * m.nHeadDim * 4) ++
    if ratio = 0 then []
    else span l.attnComp.bytes 0 (l.nComp * m.nHeadDim * 4) ++
      l.attnStateKv.bytes ++ l.attnStateScore.bytes ++
      if ratio = 4 then
        span l.indexComp.bytes 0 (l.nIndexComp * m.nIndexerHeadDim * 4) ++
          l.indexStateKv.bytes ++ l.indexStateScore.bytes
      else []

/-- Compressed rows go out as floats. -/
def saveAttnComp (compF16 : Bool) {rawCap : Nat} {f16 : Bool} {ratio : Nat} (l : LayerStore m ctx rawCap f16 ratio) :
    Except String Bytes :=
  if compF16 then payloadWriteTensorSpanF16AsF32 l.attnComp.bytes 0 (l.nComp * m.nHeadDim)
  else payloadWriteTensorSpan l.attnComp.bytes 0 (l.nComp * m.nHeadDim * 4)

/-- The ring goes out in the order of positions. -/
def saveGraphLayer (compF16 : Bool) (len rawLive rawCap : Nat) {f16 : Bool} {ratio : Nat}
    (l : LayerStore m ctx rawCap f16 ratio) : Except String Bytes := do
  let raw ← (List.range rawLive).mapM fun r =>
    payloadWriteTensorSpan l.rawCache.bytes ((len - rawLive + r) % rawCap * m.nHeadDim * 4) (m.nHeadDim * 4)
  if ratio = 0 then return raw.flatten
  let comp ← saveAttnComp compF16 l
  let kv ← payloadWriteTensorSpan l.attnStateKv.bytes 0 (layerAttnStateBytes m ratio)
  let score ← payloadWriteTensorSpan l.attnStateScore.bytes 0 (layerAttnStateBytes m ratio)
  if ratio = 4 then
    let index ← payloadWriteTensorSpan l.indexComp.bytes 0 (l.nIndexComp * m.nIndexerHeadDim * 4)
    let indexKv ← payloadWriteTensorSpan l.indexStateKv.bytes 0 (layerIndexStateBytes m ratio)
    let indexScore ← payloadWriteTensorSpan l.indexStateScore.bytes 0 (layerIndexStateBytes m ratio)
    return raw.flatten ++ (comp ++ kv ++ score ++ (index ++ indexKv ++ indexScore))
  return raw.flatten ++ (comp ++ kv ++ score)

def Session.saveLayer (compF16 : Bool) (s : Session m ctx) (il : Nat) : Except String Bytes :=
  match s.cache with
  | .cpu layer => saveCpuLayer s.rawLive (layer il)
  | .graph g => saveGraphLayer compF16 s.checkpoint.length s.rawLive g.rawCap (g.layer il)

def Session.savePayload (compF16 : Bool) (s : Session m ctx) : Except String Bytes := do
  if s.checkpointValid = false then throw "session has no valid checkpoint to save"
  let layers ← (List.range m.nLayer).mapM (s.saveLayer compF16)
  return s.payloadHeader.flatMap putU32 ++ (s.checkpoint.map fun t => t.toUInt32.toNat).flatMap putU32 ++
    s.logits.bytes ++ (List.range m.nLayer).flatMap (fun il => putU32 (s.nComp il)) ++
    (List.range m.nLayer).flatMap (fun il => putU32 (s.nIndexComp il)) ++ layers.flatten

end

/-! ## Reading -/

section
variable {σ : Type} {m : Shape} {ctx : Nat}

/-- Bytes taken into scratch memory. -/
def payloadReadBytes (n : Nat) : Loader σ Bytes := fun x =>
  if x.2.remaining < n then .error "truncated session payload" x
  else if x.2.rest.length < n then .error "failed to read session payload" (x.1, { x.2 with rest := [] })
  else .ok (x.2.rest.take n) (x.1, { remaining := x.2.remaining - n, rest := x.2.rest.drop n })

/-- Bytes read straight into storage: what a short file still had is there. -/
def payloadReadInto {k : Nat} (n : Nat) : Loader (Buf k) Unit := fun x =>
  if x.2.remaining < n then .error "truncated session payload" x
  else if x.2.rest.length < n then
    .error "failed to read session payload" (x.1.write 0 x.2.rest, { x.2 with rest := [] })
  else .ok () (x.1.write 0 (x.2.rest.take n), { remaining := x.2.remaining - n, rest := x.2.rest.drop n })

def payloadReadU32 : Loader σ Nat := do
  let b ← payloadReadBytes 4
  return getU32 b

def payloadReadTensorSpan {k : Nat} (off n : Nat) : Loader (Buf k) Unit := do
  Loader.refuse (off > k ∨ n > k - off) "session tensor is smaller than the payload"
  copyIn payloadReadBytes id 1 1 sessionIoChunk off n

def payloadReadTensorSpanF32AsF16 {k : Nat} (off count : Nat) : Loader (Buf k) Unit := do
  Loader.refuse (off > k ∨ count * 2 > k - off) "session tensor is smaller than the F16 payload"
  copyIn payloadReadBytes narrow 4 2 convertElems off count

/-- All of the payload has been read. -/
def payloadEnd : Loader σ Unit := fun x =>
  if x.2.remaining ≠ 0 then .error "KV checkpoint has trailing payload bytes" x else .ok () x

/-! Each tensor of a layer, for a loader of that tensor. -/

namespace LayerStore
variable {rawCap ratio : Nat} {f16 : Bool} {α : Type}

def onRawCache (r : Loader (Buf (rawCap * rowBytes m)) α) : Loader (LayerStore m ctx rawCap f16 ratio) α :=
  Loader.zoom (·.rawCache) (fun b l => { l with rawCache := b }) r

def onAttnComp (r : Loader (Buf (layerCompCap ctx ratio * m.nHeadDim * if f16 then 2 else 4)) α) :
    Loader (LayerStore m ctx rawCap f16 ratio) α :=
  Loader.zoom (·.attnComp) (fun b l => { l with attnComp := b }) r

def onAttnStateKv (r : Loader (Buf (layerAttnStateBytes m ratio)) α) :
    Loader (LayerStore m ctx rawCap f16 ratio) α :=
  Loader.zoom (·.attnStateKv) (fun b l => { l with attnStateKv := b }) r

def onAttnStateScore (r : Loader (Buf (layerAttnStateBytes m ratio)) α) :
    Loader (LayerStore m ctx rawCap f16 ratio) α :=
  Loader.zoom (·.attnStateScore) (fun b l => { l with attnStateScore := b }) r

def onIndexComp (r : Loader (Buf (layerCompCap ctx ratio * m.nIndexerHeadDim * 4)) α) :
    Loader (LayerStore m ctx rawCap f16 ratio) α :=
  Loader.zoom (·.indexComp) (fun b l => { l with indexComp := b }) r

def onIndexStateKv (r : Loader (Buf (layerIndexStateBytes m ratio)) α) :
    Loader (LayerStore m ctx rawCap f16 ratio) α :=
  Loader.zoom (·.indexStateKv) (fun b l => { l with indexStateKv := b }) r

def onIndexStateScore (r : Loader (Buf (layerIndexStateBytes m ratio)) α) :
    Loader (LayerStore m ctx rawCap f16 ratio) α :=
  Loader.zoom (·.indexStateScore) (fun b l => { l with indexStateScore := b }) r

end LayerStore

open LayerStore

def loadCpuLayer (rawLive nComp nIndexComp : Nat) {ratio : Nat} : Loader (CpuLayer m ctx ratio) Unit := do
  onStore (onRawCache (payloadReadInto (rawLive * m.nHeadDim * 4)))
  Loader.update fun l => { l with nRaw := rawLive }
  if ratio = 0 then return
  Loader.update fun l => { l with nComp := nComp, nIndexComp := nIndexComp }
  onStore (onAttnComp (payloadReadInto (nComp * m.nHeadDim * 4)))
  onStore (onAttnStateKv (payloadReadInto (layerAttnStateBytes m ratio)))
  onStore (onAttnStateScore (payloadReadInto (layerAttnStateBytes m ratio)))
  if ratio = 4 then
    onStore (onIndexComp (payloadReadInto (nIndexComp * m.nIndexerHeadDim * 4)))
    onStore (onIndexStateKv (payloadReadInto (layerIndexStateBytes m ratio)))
    onStore (onIndexStateScore (payloadReadInto (layerIndexStateBytes m ratio)))
where
  onStore {ratio : Nat} (r : Loader (LayerStore m ctx (defaultRawCap m ctx) false ratio) Unit) :
      Loader (CpuLayer m ctx ratio) Unit :=
    Loader.zoom (·.toLayerStore) (fun b l => { l with toLayerStore := b }) r

def loadAttnComp (compF16 : Bool) (nComp : Nat) {rawCap ratio : Nat} {f16 : Bool} :
    Loader (LayerStore m ctx rawCap f16 ratio) Unit :=
  if compF16 then onAttnComp (payloadReadTensorSpanF32AsF16 0 (nComp * m.nHeadDim))
  else onAttnComp (payloadReadTensorSpan 0 (nComp * m.nHeadDim * 4))

/-- The ring is rebuilt: the rows go to their slots in this graph. -/
def loadGraphLayer (compF16 : Bool) (tokens rawLive nComp nIndexComp : Nat) {rawCap ratio : Nat} {f16 : Bool} :
    Loader (LayerStore m ctx rawCap f16 ratio) Unit := do
  (List.range rawLive).forM fun r =>
    onRawCache (payloadReadTensorSpan ((tokens - rawLive + r) % rawCap * m.nHeadDim * 4) (m.nHeadDim * 4))
  if ratio = 0 then return
  loadAttnComp compF16 nComp
  onAttnStateKv (payloadReadTensorSpan 0 (layerAttnStateBytes m ratio))
  onAttnStateScore (payloadReadTensorSpan 0 (layerAttnStateBytes m ratio))
  if ratio = 4 then
    onIndexComp (payloadReadTensorSpan 0 (nIndexComp * m.nIndexerHeadDim * 4))
    onIndexStateKv (payloadReadTensorSpan 0 (layerIndexStateBytes m ratio))
    onIndexStateScore (payloadReadTensorSpan 0 (layerIndexStateBytes m ratio))

/-- The header checks, the same for both backends. The saved prefill chunk
    (word 3) is scheduling only and is not checked. -/
def checkHeader (m : Shape) (ctx rawCap compCap : Nat) (h : Nat → Nat) : Loader σ Unit := do
  Loader.refuse (h 2 > ctx ∨ h 7 ≥ ctx) "KV checkpoint does not fit current context"
  Loader.refuse (h 8 ≠ m.nLayer ∨ h 9 ≠ m.nHeadDim ∨ h 10 ≠ m.nIndexerHeadDim ∨ h 11 ≠ m.nVocab)
    "KV checkpoint was written for a different DS4 layout"
  Loader.refuse (h 5 ≠ defaultRawCap m ctx) "KV checkpoint graph chunk layout does not match current runtime"
  let expected := if h 7 < h 5 then h 7 else h 5
  Loader.refuse (h 4 = 0 ∨ h 12 ≠ expected ∨ h 12 > h 4 ∨ h 12 > rawCap)
    "KV checkpoint raw ring layout does not match current context"
  Loader.refuse (h 6 > compCap) "KV checkpoint compressed cache is larger than current context"

/-- One row count for each layer, bounded by the saved capacity and by the layer's. -/
def readCounts (m : Shape) (savedCap : Nat) (cap : Nat → Nat) (e : String) : Loader σ (List Nat) :=
  (List.range m.nLayer).mapM fun il => do
    let n ← payloadReadU32
    Loader.refuse (n > savedCap ∨ n > cap il) e
    return n

/-- Tokens, logits and row counts: all that is read before the caches change. -/
def readCheckpoint (h : Nat → Nat) (cap : Nat → Nat) : Loader (Session m ctx) (List Int32 × List Nat × List Nat) := do
  let tokens ← Loader.times (h 7) do
    let t ← payloadReadU32
    return (UInt32.ofNat t).toInt32
  Loader.zoom (·.logits) (fun b s => { s with logits := b }) (payloadReadInto (m.nVocab * 4))
  let nComp ← readCounts m (h 6) cap "KV checkpoint has invalid compressed row count"
  let nIndexComp ← readCounts m (h 6) cap "KV checkpoint has invalid indexer row count"
  return (tokens, nComp, nIndexComp)

/-- A loop over the layers of a cache. -/
def loadLayers {γ : Nat → Type} (m : Shape) (r : (il : Nat) → Loader (γ il) Unit) :
    Loader ((il : Nat) → γ il) Unit :=
  (List.range m.nLayer).forM fun il => Loader.zoom (fun f => f il) (fun l f => Function.update f il l) (r il)

def loadCpu (h : Nat → Nat) : Loader (Session m ctx) Unit := do
  checkHeader m ctx (defaultRawCap m ctx) (sessionCpuCompCap m ctx) h
  let (tokens, nComp, nIndexComp) ← readCheckpoint h fun _ => sessionCpuCompCap m ctx
  Loader.update fun s => { s with checkpointValid := false, mtpDraftValid := false }
  -- the cache is reset before the layers are read into it
  Loader.zoom (fun _ => fun il => kvCacheInit m ctx il) (fun layer s => { s with cache := .cpu layer })
    (loadLayers m fun il => loadCpuLayer (h 12) (nComp.getD il 0) (nIndexComp.getD il 0))
  payloadEnd
  Loader.update fun s => { s with checkpoint := tokens, checkpointValid := true, mtpDraftValid := false }

def loadGraph (compF16 : Bool) (g : Graph m ctx) (h : Nat → Nat) : Loader (Session m ctx) Unit := do
  checkHeader m ctx g.rawCap (graphCompCap m ctx) h
  let (tokens, nComp, nIndexComp) ← readCheckpoint h fun il => layerCompCap ctx (m.ratio il)
  Loader.update fun s => { s with checkpointValid := false, mtpDraftValid := false }
  -- the graph is still `g` here; the counters change last
  Loader.zoom (fun _ => g.layer) (fun layer s => { s with cache := .graph { g with layer := layer, mtpNRaw := 0 } })
    (loadLayers m fun il => loadGraphLayer compF16 (h 7) (h 12) (nComp.getD il 0) (nIndexComp.getD il 0))
  payloadEnd
  Loader.update fun s =>
    { s with checkpoint := tokens, checkpointValid := true, mtpDraftValid := false,
             cache := setCounters nComp nIndexComp s.cache }
where
  setCounters (nComp nIndexComp : List Nat) : Cache m ctx → Cache m ctx
    | .cpu layer => .cpu layer
    | .graph g => .graph { g with
        layer := fun il =>
          if il < m.nLayer then
            { g.layer il with nComp := nComp.getD il 0, nIndexComp := nIndexComp.getD il 0 }
          else g.layer il }

def loadSession (compF16 : Bool) (cache : Cache m ctx) : Loader (Session m ctx) Unit := do
  let h ← Loader.times 13 payloadReadU32
  Loader.refuse (h.getD 0 0 ≠ payloadMagic ∨ h.getD 1 0 ≠ payloadVersion) "unsupported session payload version"
  match cache with
  | .cpu _ => loadCpu fun i => h.getD i 0
  | .graph g => loadGraph compF16 g fun i => h.getD i 0

/-- Load a payload of `payloadBytes` from a file: the result, the session after
    it, and the file from there. -/
def Session.loadPayload (compF16 : Bool) (s : Session m ctx) (payloadBytes : Nat) (file : Bytes) :
    Except String Unit × Session m ctx × Bytes :=
  match loadSession compF16 s.cache (s, ⟨payloadBytes, file⟩) with
  | .ok _ x => (.ok (), x.1, x.2.rest)
  | .error e x => (.error e, x.1, x.2.rest)

end

end Ds4.Engine
