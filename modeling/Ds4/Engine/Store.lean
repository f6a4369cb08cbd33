import Ds4.Engine.Half

/- The KV state of a ds4.c session: for every layer the raw rows of the last
   window, the compressed rows the layer's compressor has emitted, and the
   compressor's own partial window.

   Correspondence (C ↔ Lean):
     `ds4_shape`, `ds4_expected_layer_compress_ratio`  ↔ `Shape`, `Shape.ratio`
     `ds4_default_raw_cap`                             ↔ `defaultRawCap`
     `ds4_layer_cache`, `kv_cache_init`                ↔ `CpuLayer`, `kvCacheInit`
     `ds4_gpu_graph`, `metal_graph_alloc_raw_cap`      ↔ `Graph`, `metalGraphAllocRawCap`
     `session_raw_live_rows`, `session_cpu_raw_live_rows` ↔ `Session.rawLive`
   A tensor is a `Buf` of the size it was allocated with; a tensor C leaves NULL
   (no compressor, or no indexer in the layer) is one nothing reads. The graph's
   element type of compressed rows is a field here and a process-wide flag in C,
   so the payload functions take that flag as an argument. -/
namespace Ds4.Engine
open Ds4 Bytes

inductive Variant where
  | flash | pro
  deriving DecidableEq, Repr

/-- The layout of the loaded model, as far as the payload depends on it. -/
structure Shape where
  variant : Variant
  nLayer : Nat
  nVocab : Nat
  nHeadDim : Nat
  nIndexerHeadDim : Nat
  nSwa : Nat
  layers : 3 ≤ nLayer
  u32 : nLayer < 2 ^ 32 ∧ nVocab < 2 ^ 32 ∧ nHeadDim < 2 ^ 32 ∧ nIndexerHeadDim < 2 ^ 32

def shapeFlash : Shape :=
  ⟨.flash, 43, 129280, 512, 128, 128, by decide, by decide⟩

def shapePro : Shape :=
  ⟨.pro, 61, 129280, 512, 128, 128, by decide, by decide⟩

/-- `ds4_expected_layer_compress_ratio`: a model with other ratios is not loaded. -/
def Shape.ratio (m : Shape) (il : Nat) : Nat :=
  match m.variant with
  | .flash => if il < 2 then 0 else if il % 2 = 0 then 4 else 128
  | .pro => if il < 2 then 128 else if il % 2 = 0 then 4 else 128

theorem Shape.ratio_two (m : Shape) : m.ratio 2 = 4 := by
  rw [ratio]
  cases m.variant <;> rfl

theorem Shape.ratio_cases (m : Shape) (il : Nat) : m.ratio il = 0 ∨ m.ratio il = 4 ∨ m.ratio il = 128 := by
  rw [ratio]
  cases m.variant <;> dsimp only <;> split_ifs <;> simp

section
variable (m : Shape)

def rowBytes : Nat := m.nHeadDim * 4

def layerAttnStateBytes (ratio : Nat) : Nat :=
  let coff := if ratio = 4 then 2 else 1
  coff * m.nHeadDim * coff * ratio * 4

def layerIndexStateBytes (ratio : Nat) : Nat :=
  let coff := if ratio = 4 then 2 else 1
  coff * m.nIndexerHeadDim * coff * ratio * 4

def defaultRawCap (ctx : Nat) : Nat :=
  let rawCap := min m.nSwa ctx
  if rawCap = 0 then 1 else rawCap

def layerCompCap (ctx ratio : Nat) : Nat := if ratio = 0 then 0 else ctx / ratio + 2

/-- The tensors of one layer. -/
structure LayerStore (ctx rawCap : Nat) (f16 : Bool) (ratio : Nat) where
  nComp : Nat
  nIndexComp : Nat
  rawCache : Buf (rawCap * rowBytes m)
  attnComp : Buf (layerCompCap ctx ratio * m.nHeadDim * if f16 then 2 else 4)
  attnStateKv : Buf (layerAttnStateBytes m ratio)
  attnStateScore : Buf (layerAttnStateBytes m ratio)
  indexComp : Buf (layerCompCap ctx ratio * m.nIndexerHeadDim * 4)
  indexStateKv : Buf (layerIndexStateBytes m ratio)
  indexStateScore : Buf (layerIndexStateBytes m ratio)

/-- `DS4_NEG_INF`, -1e30 as a float, in every element. -/
def negInf (n : Nat) : Buf n :=
  ⟨(List.range n).map fun i => [0xca, 0xf2, 0x49, 0xf1].getD (i % 4) 0, by simp⟩

def LayerStore.fresh (ctx rawCap : Nat) (f16 : Bool) (ratio : Nat) : LayerStore m ctx rawCap f16 ratio where
  nComp := 0
  nIndexComp := 0
  rawCache := .zero _
  attnComp := .zero _
  attnStateKv := .zero _
  attnStateScore := negInf _
  indexComp := .zero _
  indexStateKv := .zero _
  indexStateScore := negInf _

/-- A layer in host memory: the `nRaw` raw rows are in order of position. -/
structure CpuLayer (ctx ratio : Nat) extends LayerStore m ctx (defaultRawCap m ctx) false ratio where
  nRaw : Nat

def kvCacheInit (ctx il : Nat) : CpuLayer m ctx (m.ratio il) :=
  { LayerStore.fresh m ctx (defaultRawCap m ctx) false (m.ratio il) with nRaw := 0 }

/-- The accelerator's state. The raw rows are in a ring: position `pos` is in
    slot `pos % rawCap`. -/
structure Graph (ctx : Nat) where
  rawCap : Nat
  window_le : defaultRawCap m ctx ≤ rawCap
  rawCap_le : rawCap ≤ ctx
  f16 : Bool
  mtpNRaw : Nat
  layer : (il : Nat) → LayerStore m ctx rawCap f16 (m.ratio il)

theorem defaultRawCap_le {ctx : Nat} (hctx : 0 < ctx) : defaultRawCap m ctx ≤ ctx := by
  simp only [defaultRawCap]
  split_ifs <;> omega

/-- Any requested ring is brought between the window and the context. -/
def metalGraphAllocRawCap (rawCap : Nat) {ctx : Nat} (hctx : 0 < ctx) (f16 : Bool) : Graph m ctx where
  rawCap := min (max rawCap (defaultRawCap m ctx)) ctx
  window_le := by
    have := defaultRawCap_le m hctx
    omega
  rawCap_le := by omega
  f16 := f16
  mtpNRaw := 0
  layer := fun il => LayerStore.fresh m ctx _ f16 (m.ratio il)

/-- The smallest compression ratio of the model. -/
def minRatio : Nat :=
  (List.range m.nLayer).foldl (fun r il => if m.ratio il ≠ 0 ∧ m.ratio il < r then m.ratio il else r) (2 ^ 32 - 1)

def graphCompCap (ctx : Nat) : Nat := ctx / minRatio m + 2

/-- `session_cpu_comp_cap`: of the first layer with ratio 4, else of the first
    with a compressor. -/
def sessionCpuCompCap (ctx : Nat) : Nat :=
  match (List.range m.nLayer).find? (fun il => m.ratio il = 4) with
  | some il => layerCompCap ctx (m.ratio il)
  | none =>
    match (List.range m.nLayer).find? (fun il => m.ratio il ≠ 0) with
    | some il => layerCompCap ctx (m.ratio il)
    | none => ctx

end

inductive Cache (m : Shape) (ctx : Nat) where
  | cpu (layer : (il : Nat) → CpuLayer m ctx (m.ratio il))
  | graph (g : Graph m ctx)

/-- A session over `ctx` positions that no distributed coordinator drives. -/
structure Session (m : Shape) (ctx : Nat) where
  ctx_pos : 0 < ctx
  ctx_int : ctx < 2 ^ 31
  prefillCap : Nat
  checkpoint : List Int32
  checkpointValid : Bool
  mtpDraftValid : Bool
  logits : Buf (m.nVocab * 4)
  cache : Cache m ctx

/-- How many raw rows the next token can look back on. -/
def Session.rawLive {m : Shape} {ctx : Nat} (s : Session m ctx) : Nat :=
  match s.cache with
  | .cpu _ => min (defaultRawCap m ctx) s.checkpoint.length
  | .graph g => min (min (defaultRawCap m ctx) g.rawCap) s.checkpoint.length

theorem Session.rawLive_eq {m : Shape} {ctx : Nat} (s : Session m ctx) :
    s.rawLive = min (defaultRawCap m ctx) s.checkpoint.length := by
  rw [rawLive]
  cases s.cache with
  | cpu _ => rfl
  | graph g =>
    have := g.window_le
    simp only
    omega

/-! ## Capacities -/

theorem minRatio_eq (m : Shape) : minRatio m = 4 := by
  obtain ⟨k, hk⟩ : ∃ k, m.nLayer = 3 + k := ⟨m.nLayer - 3, by have := m.layers; omega⟩
  rw [minRatio, hk]
  clear hk
  induction k with
  | zero => cases hv : m.variant <;> simp [List.range_succ, Shape.ratio, hv]
  | succ k ih =>
    rw [← Nat.add_assoc, List.range_succ, List.foldl_append, ih]
    rcases m.ratio_cases (3 + k) with h | h | h <;> simp [h]

theorem sessionCpuCompCap_eq (m : Shape) (ctx : Nat) : sessionCpuCompCap m ctx = ctx / 4 + 2 := by
  rw [sessionCpuCompCap]
  have hsome : ((List.range m.nLayer).find? fun il => m.ratio il = 4).isSome := by
    rw [List.find?_isSome]
    exact ⟨2, by have := m.layers; simp; omega, by simp [m.ratio_two]⟩
  obtain ⟨il, hil⟩ := Option.isSome_iff_exists.mp hsome
  have hratio : m.ratio il = 4 := by simpa using List.find?_some hil
  rw [hil]
  simp [layerCompCap, hratio]

theorem layerCompCap_le (m : Shape) (ctx il : Nat) : layerCompCap ctx (m.ratio il) ≤ ctx / 4 + 2 := by
  rcases m.ratio_cases il with h | h | h <;> simp [h, layerCompCap]
  omega

theorem layerCompCap_mono {c d : Nat} (h : c ≤ d) (ratio : Nat) : layerCompCap c ratio ≤ layerCompCap d ratio := by
  simp only [layerCompCap]
  split_ifs
  · exact Nat.le_refl 0
  · exact Nat.add_le_add_right (Nat.div_le_div_right h) 2

end Ds4.Engine
