import Mathlib.Data.List.GetD
import Ds4.Engine.Payload

/- A payload saved from one session and loaded into another.

   PROVED: every valid session, on the CPU or an accelerator, saves exactly
   `payloadBytes` bytes, and a session of the same model with no smaller context
   and the same raw window, on either backend and with any ring, loads them,
   takes exactly them, and then `Restores` the first (`payload_roundTrip`). A
   different window is refused (`payload_window_refused`), which happens when
   the saving session's context is below `nSwa`.

   What a layer means to the next token is its `LayerView` with its raw rows by
   position. Both writers write `layerPayload` of it (`saveLayer_eq`); both
   readers bring it back (`loadCpuLayer_reads`, `loadGraphLayer_reads`). -/
namespace Ds4.Engine
open Ds4 Bytes

variable {m : Shape} {σ : Type}

/-! ## The primitives -/

theorem payloadReadBytes_reads (s : σ) (b : Bytes) : Reads (payloadReadBytes b.length) s b b s := by
  intro n tail
  rw [payloadReadBytes, if_neg (by simp), if_neg (by simp)]
  simp

theorem payloadReadInto_reads {k : Nat} (t : Buf k) {b : Bytes} {n : Nat} (hn : b.length = n) :
    Reads (payloadReadInto n) t b () (t.write 0 b) := by
  subst hn
  intro n tail
  rw [payloadReadInto, if_neg (by simp), if_neg (by simp)]
  simp

theorem payloadReadU32_reads (s : σ) (v : Nat) : Reads payloadReadU32 s (putU32 v) (v % 2 ^ 32) s := by
  have h := Reads.bind_last (f := fun b => Pure.pure (getU32 b)) (payloadReadBytes_reads s (putU32 v))
    (Reads.pure (getU32 (putU32 v)) s)
  rwa [getU32_putU32] at h

theorem payloadReadTensorSpan_reads {k : Nat} (t : Buf k) {off n : Nat} {b : Bytes} (hb : b.length = n)
    (hfit : off + n ≤ k) : Reads (payloadReadTensorSpan off n) t b () (t.write off b) := by
  apply Reads.bind_nil (Reads.passes (by omega) t)
  exact copyIn_reads (fun s b => payloadReadBytes_reads s b) unitwise_id (by decide) (by omega) (by omega)

theorem payloadReadTensorSpanF32AsF16_reads {k : Nat} (t : Buf k) {off count : Nat} {b : Bytes}
    (hb : b.length = count * 4) (hfit : off + count * 2 ≤ k) :
    Reads (payloadReadTensorSpanF32AsF16 off count) t b () (t.write off (narrow b)) := by
  apply Reads.bind_nil (Reads.passes (by omega) t)
  exact copyIn_reads (fun s b => payloadReadBytes_reads s b) unitwise_narrow (by decide) hb hfit

theorem payloadWriteTensorSpan_ok {b : Bytes} {off n : Nat} (h : off + n ≤ b.length) :
    payloadWriteTensorSpan b off n = .ok (span b off n) := by
  rw [payloadWriteTensorSpan, if_neg (by omega), copyOut_eq unitwise_id (by decide) b off n (by omega)]
  simp

theorem payloadWriteTensorSpanF16AsF32_ok {b : Bytes} {off count : Nat} (h : off + count * 2 ≤ b.length) :
    payloadWriteTensorSpanF16AsF32 b off count = .ok (widen (span b off (count * 2))) := by
  rw [payloadWriteTensorSpanF16AsF32, if_neg (by omega), copyOut_eq unitwise_widen (by decide) b off count h]

theorem mapM_ok {ι α : Type} {l : List ι} {f : ι → Except String α} {g : ι → α} (h : ∀ i ∈ l, f i = .ok (g i)) :
    l.mapM f = .ok (l.map g) := by
  induction l with
  | nil => rfl
  | cons i l ih =>
    rw [List.mapM_cons, h i (by simp), ih fun j hj => h j (by simp [hj])]
    rfl

theorem Buf.write_full {n : Nat} (t : Buf n) {b : Bytes} (h : b.length = n) : (t.write 0 b).bytes = b := by
  have ht := t.size
  rw [Buf.write_val (by omega)]
  simp
  omega

theorem span_full {b : Bytes} {n : Nat} (h : b.length = n) : span b 0 n = b := by
  simp [span]
  omega

/-! ## Halves and floats -/

/-- No element of a row is a NaN. -/
def NoNaN : Bytes → Prop
  | a :: b :: c :: d :: r => ¬floatNaN (getU32 [a, b, c, d]) ∧ NoNaN r
  | _ => True

/-- Rows that were halves are the same halves again. -/
theorem widen_narrow_widen : ∀ x : Bytes, NoNaN (widen x) → widen (narrow (widen x)) = widen x
  | [], _ => rfl
  | [_], _ => rfl
  | a :: b :: r, h => by
    have hlt : a.toNat + b.toNat * 256 < 2 ^ 16 := by
      have := a.toNat_lt
      have := b.toNat_lt
      omega
    have hword : getU32 (putU32 (f16ToF32 (a.toNat + b.toNat * 256))) = f16ToF32 (a.toNat + b.toNat * 256) := by
      rw [getU32_putU32, Nat.mod_eq_of_lt (f16ToF32_lt hlt)]
    obtain ⟨hnan, hr⟩ := h
    change ¬floatNaN (getU32 (putU32 _)) at hnan
    rw [hword] at hnan
    have hback := f32ToF16_f16ToF32 hlt fun hx => hnan (halfNaN_float hx)
    show widen (narrow (putU32 _ ++ widen r)) = putU32 _ ++ widen r
    rw [putU32]
    simp only [List.cons_append, List.nil_append, narrow]
    change widen (UInt8.ofNat (f32ToF16 (getU32 (putU32 _))) :: UInt8.ofNat (f32ToF16 (getU32 (putU32 _)) / 256) :: _) = _
    rw [hword, hback, widen, widen_narrow_widen r hr]
    have hlow : (UInt8.ofNat (a.toNat + b.toNat * 256)).toNat = a.toNat := by
      have := a.toNat_lt
      simp
    have hhigh : (UInt8.ofNat ((a.toNat + b.toNat * 256) / 256)).toNat = b.toNat := by
      have := a.toNat_lt
      have := b.toNat_lt
      simp
      omega
    rw [hlow, hhigh]
    rfl

/-! ## What a layer holds -/

/-- The part of a layer that does not move with the ring; rows are floats. -/
structure LayerView where
  nComp : Nat
  nIndexComp : Nat
  comp : Bytes
  kv : Bytes
  score : Bytes
  index : Bytes
  indexKv : Bytes
  indexScore : Bytes

def LayerStore.view {ctx rawCap : Nat} {f16 : Bool} {ratio : Nat} (l : LayerStore m ctx rawCap f16 ratio) :
    LayerView where
  nComp := l.nComp
  nIndexComp := l.nIndexComp
  comp :=
    if f16 then widen (span l.attnComp.bytes 0 (l.nComp * m.nHeadDim * 2))
    else span l.attnComp.bytes 0 (l.nComp * m.nHeadDim * 4)
  kv := l.attnStateKv.bytes
  score := l.attnStateScore.bytes
  index := span l.indexComp.bytes 0 (l.nIndexComp * m.nIndexerHeadDim * 4)
  indexKv := l.indexStateKv.bytes
  indexScore := l.indexStateScore.bytes

def layerPayload (ratio : Nat) (raw : List Bytes) (v : LayerView) : Bytes :=
  raw.flatten ++
    if ratio = 0 then []
    else v.comp ++ v.kv ++ v.score ++ if ratio = 4 then v.index ++ v.indexKv ++ v.indexScore else []

/-- The sizes a view of a layer has. -/
structure LayerView.Sized (m : Shape) (ratio cap : Nat) (v : LayerView) : Prop where
  nComp : v.nComp ≤ cap
  nIndexComp : v.nIndexComp ≤ cap
  comp : v.comp.length = v.nComp * m.nHeadDim * 4
  kv : v.kv.length = layerAttnStateBytes m ratio
  score : v.score.length = layerAttnStateBytes m ratio
  index : v.index.length = v.nIndexComp * m.nIndexerHeadDim * 4
  indexKv : v.indexKv.length = layerIndexStateBytes m ratio
  indexScore : v.indexScore.length = layerIndexStateBytes m ratio

theorem LayerStore.view_sized {ctx rawCap : Nat} {f16 : Bool} {ratio : Nat} (l : LayerStore m ctx rawCap f16 ratio)
    (hc : l.nComp ≤ layerCompCap ctx ratio) (hi : l.nIndexComp ≤ layerCompCap ctx ratio) :
    l.view.Sized m ratio (layerCompCap ctx ratio) where
  nComp := hc
  nIndexComp := hi
  comp := by
    have hmul := Nat.mul_le_mul_right m.nHeadDim hc
    cases f16 with
    | true =>
      have hsize : l.attnComp.bytes.length = layerCompCap ctx ratio * m.nHeadDim * 2 := l.attnComp.size
      exact unitwise_widen.length _ _ (length_span (by omega))
    | false =>
      have hsize : l.attnComp.bytes.length = layerCompCap ctx ratio * m.nHeadDim * 4 := l.attnComp.size
      exact length_span (by omega)
  kv := l.attnStateKv.size
  score := l.attnStateScore.size
  index := by
    have hmul := Nat.mul_le_mul_right m.nIndexerHeadDim hi
    have hsize := l.indexComp.size
    exact length_span (by omega)
  indexKv := l.indexStateKv.size
  indexScore := l.indexStateScore.size

theorem length_layerPayload {ratio cap n k : Nat} {raw : List Bytes} {v : LayerView} (hv : v.Sized m ratio cap)
    (hn : raw.length = n) (hraw : ∀ r ∈ raw, r.length = k) :
    (layerPayload ratio raw v).length = n * k + if ratio = 0 then 0
      else v.nComp * m.nHeadDim * 4 + layerAttnStateBytes m ratio + layerAttnStateBytes m ratio +
        if ratio = 4 then
          v.nIndexComp * m.nIndexerHeadDim * 4 + layerIndexStateBytes m ratio + layerIndexStateBytes m ratio
        else 0 := by
  have hflat : raw.flatten.length = n * k := by
    rw [List.length_flatten, List.map_congr_left hraw, ← hn]
    simp
  rw [layerPayload, List.length_append, hflat]
  split_ifs <;> simp [hv.comp, hv.kv, hv.score, hv.index, hv.indexKv, hv.indexScore, Nat.add_assoc]

section
variable {ctx : Nat}

def Session.view (s : Session m ctx) (il : Nat) : LayerView :=
  match s.cache with
  | .cpu layer => (layer il).view
  | .graph g => (g.layer il).view

/-- The raw row of position `pos`, where attention reads it. -/
def Session.rawRow (s : Session m ctx) (il pos : Nat) : Bytes :=
  match s.cache with
  | .cpu layer =>
    span (layer il).rawCache.bytes (((layer il).nRaw - (s.checkpoint.length - pos)) * rowBytes m) (rowBytes m)
  | .graph g => span (g.layer il).rawCache.bytes (pos % g.rawCap * rowBytes m) (rowBytes m)

/-- Whether the cache keeps compressed rows as halves. -/
def Session.f16 (s : Session m ctx) : Bool :=
  match s.cache with
  | .cpu _ => false
  | .graph g => g.f16

/-- The process's element type is the one the session was allocated with. -/
def Session.KeepsType (s : Session m ctx) (compF16 : Bool) : Prop :=
  match s.cache with
  | .cpu _ => True
  | .graph g => compF16 = g.f16

/-- A valid checkpoint of fewer tokens than positions; the row counts are within
    the layer's capacity and a CPU layer has the rows of the window. -/
structure Session.Ok (s : Session m ctx) : Prop where
  valid : s.checkpointValid = true
  short : s.checkpoint.length < ctx
  nComp : ∀ il < m.nLayer, s.nComp il ≤ layerCompCap ctx (m.ratio il)
  nIndexComp : ∀ il < m.nLayer, s.nIndexComp il ≤ layerCompCap ctx (m.ratio il)
  nRaw : ∀ layer, s.cache = .cpu layer → ∀ il < m.nLayer,
    s.rawLive ≤ (layer il).nRaw ∧ (layer il).nRaw ≤ defaultRawCap m ctx

/-- The raw rows of the window, oldest first. -/
def Session.rawRows (s : Session m ctx) (il : Nat) : List Bytes :=
  (List.range s.rawLive).map fun r => s.rawRow il (s.checkpoint.length - s.rawLive + r)

theorem span_rows (b : Bytes) (k n w : Nat) :
    span b (k * w) (n * w) = ((List.range n).map fun r => span b ((k + r) * w) w).flatten := by
  induction n with
  | zero => simp
  | succ n ih =>
    rw [Nat.succ_mul, span_add, ih, List.range_succ, List.map_append, List.flatten_append]
    simp [Nat.add_mul]

theorem span_flatten {w : Nat} : ∀ {rows : List Bytes} {i : Nat}, (∀ r ∈ rows, r.length = w) → i < rows.length →
    ∀ tail, span (rows.flatten ++ tail) (i * w) w = rows.getD i []
  | r :: rows, 0, hw, _, tail => by
    have hr := hw r (by simp)
    simp [span, ← hr]
  | r :: rows, i + 1, hw, hi, tail => by
    have hr := hw r (by simp)
    have ih := span_flatten (fun r hr => hw r (by simp [hr])) (Nat.lt_of_succ_lt_succ hi) tail
    rw [span] at ih ⊢
    rw [List.flatten_cons, List.append_assoc, List.drop_append, List.drop_of_length_le (by rw [hr, Nat.succ_mul]; omega),
      hr, Nat.succ_mul, Nat.add_sub_cancel, List.nil_append, ih, List.getD_cons_succ]

theorem Session.view_sized {s : Session m ctx} (hs : s.Ok) {il : Nat} (hil : il < m.nLayer) :
    (s.view il).Sized m (m.ratio il) (layerCompCap ctx (m.ratio il)) := by
  have hc := hs.nComp il hil
  have hi := hs.nIndexComp il hil
  rw [nComp] at hc
  rw [nIndexComp] at hi
  rw [view]
  cases h : s.cache with
  | cpu layer =>
    rw [h] at hc hi
    exact (layer il).toLayerStore.view_sized hc hi
  | graph g =>
    rw [h] at hc hi
    exact (g.layer il).view_sized hc hi

theorem Session.length_rawRow {s : Session m ctx} (hs : s.Ok) {il : Nat} (hil : il < m.nLayer) {pos : Nat}
    (hlow : s.checkpoint.length ≤ pos + s.rawLive) (hhigh : pos < s.checkpoint.length) :
    (s.rawRow il pos).length = rowBytes m := by
  have hlive := s.rawLive_eq
  rw [rawRow]
  cases h : s.cache with
  | cpu layer =>
    obtain ⟨hraw, hcap⟩ := hs.nRaw layer h il hil
    have hmul := Nat.mul_le_mul_right (rowBytes m)
      (show (layer il).nRaw - (s.checkpoint.length - pos) + 1 ≤ defaultRawCap m ctx by omega)
    have hsize := (layer il).rawCache.size
    apply length_span
    rw [Nat.add_mul] at hmul
    omega
  | graph g =>
    have hcap : 0 < g.rawCap := by
      have := g.window_le
      omega
    have hmul := Nat.mul_le_mul_right (rowBytes m) (Nat.mod_lt pos hcap)
    have hsize := (g.layer il).rawCache.size
    apply length_span
    rw [Nat.succ_mul] at hmul
    omega

/-! ## The writer -/

theorem saveCpuLayer_eq {rawLive ratio : Nat} {l : CpuLayer m ctx ratio} (h : rawLive ≤ l.nRaw) :
    saveCpuLayer rawLive l = .ok (layerPayload ratio
      ((List.range rawLive).map fun r => span l.rawCache.bytes ((l.nRaw - rawLive + r) * rowBytes m) (rowBytes m))
      l.view) := by
  rw [saveCpuLayer, if_neg (by omega), Nat.mul_assoc, ← rowBytes, span_rows]
  rfl

theorem saveGraphLayer_eq {len rawLive rawCap ratio : Nat} {f16 : Bool} {l : LayerStore m ctx rawCap f16 ratio}
    (hcap : 0 < rawCap) (hc : l.nComp ≤ layerCompCap ctx ratio) (hi : l.nIndexComp ≤ layerCompCap ctx ratio) :
    saveGraphLayer f16 len rawLive rawCap l = .ok (layerPayload ratio
      ((List.range rawLive).map fun r =>
        span l.rawCache.bytes ((len - rawLive + r) % rawCap * rowBytes m) (rowBytes m)) l.view) := by
  have hraw : (List.range rawLive).mapM (fun r => payloadWriteTensorSpan l.rawCache.bytes
      ((len - rawLive + r) % rawCap * m.nHeadDim * 4) (m.nHeadDim * 4)) = .ok ((List.range rawLive).map fun r =>
        span l.rawCache.bytes ((len - rawLive + r) % rawCap * rowBytes m) (rowBytes m)) := by
    apply mapM_ok
    intro r _
    have hmul := Nat.mul_le_mul_right (rowBytes m) (Nat.mod_lt (len - rawLive + r) hcap)
    have hsize := l.rawCache.size
    rw [Nat.succ_mul] at hmul
    rw [Nat.mul_assoc, ← rowBytes]
    exact payloadWriteTensorSpan_ok (by omega)
  have hcomp : saveAttnComp f16 l = .ok l.view.comp := by
    have hmul := Nat.mul_le_mul_right m.nHeadDim hc
    cases f16 with
    | true =>
      have hsize : l.attnComp.bytes.length = layerCompCap ctx ratio * m.nHeadDim * 2 := l.attnComp.size
      exact payloadWriteTensorSpanF16AsF32_ok (by omega)
    | false =>
      have hsize : l.attnComp.bytes.length = layerCompCap ctx ratio * m.nHeadDim * 4 := l.attnComp.size
      exact payloadWriteTensorSpan_ok (by omega)
  have hfull : ∀ {n : Nat} (t : Buf n), payloadWriteTensorSpan t.bytes 0 n = .ok t.bytes := by
    intro n t
    have ht := t.size
    rw [payloadWriteTensorSpan_ok (by omega), span_full ht]
  have hindex : payloadWriteTensorSpan l.indexComp.bytes 0 (l.nIndexComp * m.nIndexerHeadDim * 4) =
      .ok l.view.index := by
    have hmul := Nat.mul_le_mul_right m.nIndexerHeadDim hi
    have hsize := l.indexComp.size
    exact payloadWriteTensorSpan_ok (by omega)
  rw [saveGraphLayer, hraw, hcomp, hfull, hfull, hindex, hfull, hfull, layerPayload]
  by_cases h0 : ratio = 0
  · simp [h0, pure, Except.pure, bind, Except.bind]
  · by_cases h4 : ratio = 4
    · simp [h4, pure, Except.pure, bind, Except.bind, LayerStore.view]
    · simp [h0, h4, pure, Except.pure, bind, Except.bind, LayerStore.view]

theorem Session.saveLayer_eq {s : Session m ctx} (hs : s.Ok) {compF16 : Bool} (hf : s.KeepsType compF16) {il : Nat}
    (hil : il < m.nLayer) :
    s.saveLayer compF16 il = .ok (layerPayload (m.ratio il) (s.rawRows il) (s.view il)) := by
  have hlive := s.rawLive_eq
  have hc := hs.nComp il hil
  have hi := hs.nIndexComp il hil
  simp only [nComp, nIndexComp] at hc hi
  simp only [KeepsType] at hf
  simp only [saveLayer, rawRows, rawRow, view]
  cases h : s.cache with
  | cpu layer =>
    obtain ⟨hraw, -⟩ := hs.nRaw layer h il hil
    simp only
    rw [saveCpuLayer_eq hraw]
    congr 2
    apply List.map_congr_left
    intro r hr
    rw [List.mem_range] at hr
    congr 2
    omega
  | graph g =>
    rw [h] at hc hi hf
    subst hf
    have := g.window_le
    exact saveGraphLayer_eq (Nat.lt_of_lt_of_le (by simp only [defaultRawCap]; split_ifs <;> omega) this) hc hi

/-! ## The reader of one layer -/

/-- A layer after its payload is read: `raw` is the new raw cache. -/
def LayerStore.restore {rawCap : Nat} {f16 : Bool} {ratio : Nat} (raw : Buf (rawCap * rowBytes m)) (v : LayerView)
    (l : LayerStore m ctx rawCap f16 ratio) : LayerStore m ctx rawCap f16 ratio :=
  let l := { l with rawCache := raw }
  if ratio = 0 then l
  else
    let l := { l with
      attnComp := l.attnComp.write 0 (if f16 then narrow v.comp else v.comp)
      attnStateKv := l.attnStateKv.write 0 v.kv
      attnStateScore := l.attnStateScore.write 0 v.score }
    if ratio = 4 then
      { l with
        indexComp := l.indexComp.write 0 v.index
        indexStateKv := l.indexStateKv.write 0 v.indexKv
        indexStateScore := l.indexStateScore.write 0 v.indexScore }
    else l

/-- Float rows as a cache with that element type gives them back. -/
def asStored (f16 : Bool) (rows : Bytes) : Bytes := if f16 then widen (narrow rows) else rows

/-- The rows of a window put into a ring. -/
def ringWrite {n : Nat} (first cap w : Nat) (rows : List Bytes) (t : Buf n) : Buf n :=
  (List.range rows.length).foldl (fun t r => t.write ((first + r) % cap * w) (rows.getD r [])) t

theorem slot_ne {first cap i j : Nat} (hij : i < j) (hj : j < cap) : (first + i) % cap ≠ (first + j) % cap := by
  intro h
  have hsub := Nat.sub_mod_eq_zero_of_mod_eq h.symm
  rw [Nat.add_sub_add_left, Nat.mod_eq_of_lt (by omega)] at hsub
  omega

/-- Every row of a window is in its slot after all are written. -/
theorem span_ringWrite {first cap w : Nat} {rows : List Bytes} (t : Buf (cap * w)) (hcap : rows.length ≤ cap)
    (hw : ∀ r ∈ rows, r.length = w) {i : Nat} (hi : i < rows.length) :
    span (ringWrite first cap w rows t).bytes ((first + i) % cap * w) w = rows.getD i [] := by
  have hget : ∀ j < rows.length, (rows.getD j []).length = w := by
    intro j hj
    rw [List.getD_eq_getElem _ _ hj]
    exact hw _ (List.getElem_mem hj)
  -- the rows written so far stay: their slots are not used again before `cap` rows
  have hrun : ∀ n ≤ rows.length, ∀ i < n,
      span ((List.range n).foldl (fun t r => t.write ((first + r) % cap * w) (rows.getD r [])) t).bytes
        ((first + i) % cap * w) w = rows.getD i [] := by
    intro n
    induction n with
    | zero => simp
    | succ n ih =>
      intro hn i hi
      rw [List.range_succ, List.foldl_append, List.foldl_cons, List.foldl_nil]
      have hfit : ∀ j, (first + j) % cap * w + w ≤ cap * w := by
        intro j
        have := Nat.mul_le_mul_right w (Nat.mod_lt (first + j) (by omega : 0 < cap))
        rwa [Nat.succ_mul] at this
      rcases Nat.lt_or_ge i n with h | h
      · rw [Buf.span_write_other, ih (by omega) i h]
        rw [hget n (by omega)]
        rcases Nat.lt_or_gt_of_ne (@slot_ne first cap i n h (by omega)) with hlt | hlt
        · have := Nat.mul_le_mul_right w hlt
          rw [Nat.succ_mul] at this
          omega
        · have := Nat.mul_le_mul_right w hlt
          rw [Nat.succ_mul] at this
          omega
      · obtain rfl : i = n := by omega
        have hself := @Buf.span_write_self _ ((List.range i).foldl
          (fun t r => t.write ((first + r) % cap * w) (rows.getD r [])) t)
          ((first + i) % cap * w) (rows.getD i []) (by
            rw [hget i (by omega)]
            exact hfit i)
        rwa [hget i (by omega)] at hself
  exact hrun rows.length (Nat.le_refl _) i hi

theorem LayerStore.restore_view {rawCap cap : Nat} {f16 : Bool} {ratio : Nat} (raw : Buf (rawCap * rowBytes m))
    {v : LayerView} (hv : v.Sized m ratio cap) (hcap : cap ≤ layerCompCap ctx ratio)
    (l : LayerStore m ctx rawCap f16 ratio) (hratio : ratio ≠ 0) :
    let v' := { l.restore raw v with nComp := v.nComp, nIndexComp := v.nIndexComp }.view
    v'.comp = asStored f16 v.comp ∧ v'.kv = v.kv ∧ v'.score = v.score ∧
      (ratio = 4 → v'.index = v.index ∧ v'.indexKv = v.indexKv ∧ v'.indexScore = v.indexScore) := by
  have hmul := Nat.mul_le_mul_right m.nHeadDim (Nat.le_trans hv.nComp hcap)
  have himul := Nat.mul_le_mul_right m.nIndexerHeadDim (Nat.le_trans hv.nIndexComp hcap)
  have hcomp : (l.restore raw v).attnComp = l.attnComp.write 0 (if f16 then narrow v.comp else v.comp) := by
    by_cases h4 : ratio = 4
    · simp only [restore, if_neg hratio, if_pos h4]
    · simp only [restore, if_neg hratio, if_neg h4]
  have hkv : (l.restore raw v).attnStateKv = l.attnStateKv.write 0 v.kv := by
    by_cases h4 : ratio = 4
    · simp only [restore, if_neg hratio, if_pos h4]
    · simp only [restore, if_neg hratio, if_neg h4]
  have hscore : (l.restore raw v).attnStateScore = l.attnStateScore.write 0 v.score := by
    by_cases h4 : ratio = 4
    · simp only [restore, if_neg hratio, if_pos h4]
    · simp only [restore, if_neg hratio, if_neg h4]
  refine ⟨?_, ?_, ?_, fun h4 => ?_⟩
  · simp only [view, hcomp]
    cases f16 with
    | true =>
      have hlen := unitwise_narrow.length _ _ hv.comp
      simp only [if_true, asStored]
      rw [← hlen, Buf.span_write_self]
      rw [hlen]
      show _ ≤ layerCompCap ctx ratio * m.nHeadDim * 2
      omega
    | false =>
      simp only [Bool.false_eq_true, if_false, asStored]
      rw [← hv.comp, Buf.span_write_self]
      rw [hv.comp]
      show _ ≤ layerCompCap ctx ratio * m.nHeadDim * 4
      omega
  · simp only [view, hkv]
    exact Buf.write_full _ hv.kv
  · simp only [view, hscore]
    exact Buf.write_full _ hv.score
  · have hindex : (l.restore raw v).indexComp = l.indexComp.write 0 v.index := by
      simp only [restore, if_neg hratio, if_pos h4]
    have hikv : (l.restore raw v).indexStateKv = l.indexStateKv.write 0 v.indexKv := by
      simp only [restore, if_neg hratio, if_pos h4]
    have hiscore : (l.restore raw v).indexStateScore = l.indexStateScore.write 0 v.indexScore := by
      simp only [restore, if_neg hratio, if_pos h4]
    refine ⟨?_, ?_, ?_⟩
    · simp only [view, hindex]
      rw [← hv.index, Buf.span_write_self]
      rw [hv.index]
      omega
    · simp only [view, hikv]
      exact Buf.write_full _ hv.indexKv
    · simp only [view, hiscore]
      exact Buf.write_full _ hv.indexScore

theorem loadAttnComp_reads {rawCap cap : Nat} {f16 : Bool} {ratio : Nat} {v : LayerView} (hv : v.Sized m ratio cap)
    (hcap : cap ≤ layerCompCap ctx ratio) (l : LayerStore m ctx rawCap f16 ratio) :
    Reads (loadAttnComp f16 v.nComp) l v.comp ()
      { l with attnComp := l.attnComp.write 0 (if f16 then narrow v.comp else v.comp) } := by
  have hmul := Nat.mul_le_mul_right m.nHeadDim (Nat.le_trans hv.nComp hcap)
  rw [loadAttnComp]
  cases f16 with
  | true =>
    have hfit : 0 + v.nComp * m.nHeadDim * 2 ≤ layerCompCap ctx ratio * m.nHeadDim * 2 := by omega
    show Reads (LayerStore.onAttnComp (payloadReadTensorSpanF32AsF16 0 (v.nComp * m.nHeadDim))) l v.comp ()
      { l with attnComp := l.attnComp.write 0 (narrow v.comp) }
    exact Reads.zoom (payloadReadTensorSpanF32AsF16_reads _ hv.comp hfit)
  | false =>
    have hfit : 0 + v.nComp * m.nHeadDim * 4 ≤ layerCompCap ctx ratio * m.nHeadDim * 4 := by omega
    show Reads (LayerStore.onAttnComp (payloadReadTensorSpan 0 (v.nComp * m.nHeadDim * 4))) l v.comp ()
      { l with attnComp := l.attnComp.write 0 v.comp }
    exact Reads.zoom (payloadReadTensorSpan_reads _ hv.comp hfit)

theorem loadGraphLayer_reads {tokens rawCap cap : Nat} {f16 : Bool} {ratio : Nat} {raw : List Bytes} {v : LayerView}
    (hv : v.Sized m ratio cap) (hcap : cap ≤ layerCompCap ctx ratio) (hpos : 0 < rawCap)
    (hw : ∀ r ∈ raw, r.length = rowBytes m) (l : LayerStore m ctx rawCap f16 ratio) :
    Reads (loadGraphLayer f16 tokens raw.length v.nComp v.nIndexComp) l (layerPayload ratio raw v) ()
      (l.restore (ringWrite (tokens - raw.length) rawCap (rowBytes m) raw l.rawCache) v) := by
  have hslot : ∀ r, (tokens - raw.length + r) % rawCap * m.nHeadDim * 4 =
      (tokens - raw.length + r) % rawCap * rowBytes m := fun r => Nat.mul_assoc _ _ _
  have hraw : Reads ((List.range raw.length).forM fun r => LayerStore.onRawCache (payloadReadTensorSpan
      ((tokens - raw.length + r) % rawCap * m.nHeadDim * 4) (m.nHeadDim * 4))) l raw.flatten ()
        { l with rawCache := ringWrite (tokens - raw.length) rawCap (rowBytes m) raw l.rawCache } := by
    have h := Reads.forM (b := fun r => raw.getD r []) (l := List.range raw.length)
      (t := fun r (l : LayerStore m ctx rawCap f16 ratio) => { l with
        rawCache := l.rawCache.write ((tokens - raw.length + r) % rawCap * rowBytes m) (raw.getD r []) })
      (f := fun r => LayerStore.onRawCache (payloadReadTensorSpan
        ((tokens - raw.length + r) % rawCap * m.nHeadDim * 4) (m.nHeadDim * 4))) (fun r hr s => by
          rw [List.mem_range] at hr
          have hlen : (raw.getD r []).length = m.nHeadDim * 4 := by
            rw [List.getD_eq_getElem _ _ hr]
            exact hw _ (List.getElem_mem hr)
          have hmul := Nat.mul_le_mul_right (rowBytes m) (Nat.mod_lt (tokens - raw.length + r) hpos)
          rw [Nat.succ_mul] at hmul
          rw [hslot]
          exact Reads.zoom (payloadReadTensorSpan_reads _ hlen hmul)) l
    have hflat : (List.range raw.length).flatMap (fun r => raw.getD r []) = raw.flatten := by
      rw [List.flatMap_def]
      congr 1
      apply List.ext_getElem
      · simp
      · intro i hi hi'
        simp [List.getElem?_eq_getElem hi']
    have hfold : ∀ (is : List Nat) (l : LayerStore m ctx rawCap f16 ratio),
        is.foldl (fun l r => { l with
          rawCache := l.rawCache.write ((tokens - raw.length + r) % rawCap * rowBytes m) (raw.getD r []) }) l =
        { l with rawCache := is.foldl (fun t r =>
            t.write ((tokens - raw.length + r) % rawCap * rowBytes m) (raw.getD r [])) l.rawCache } := by
      intro is
      induction is with
      | nil => exact fun l => rfl
      | cons i is ih => exact fun l => ih _
    rw [hflat, hfold] at h
    exact h
  rw [loadGraphLayer, layerPayload]
  apply Reads.bind hraw
  by_cases h0 : ratio = 0
  · rw [if_pos h0, if_pos h0, LayerStore.restore, if_pos h0]
    exact Reads.pure () _
  · rw [if_neg h0, if_neg h0, LayerStore.restore, if_neg h0]
    have hfull : ∀ {n : Nat} (t : Buf n) (b : Bytes), b.length = n →
        Reads (payloadReadTensorSpan 0 n) t b () (t.write 0 b) :=
      fun t b hb => payloadReadTensorSpan_reads t hb (by omega)
    rw [List.append_assoc, List.append_assoc]
    apply Reads.bind (loadAttnComp_reads hv hcap _)
    apply Reads.bind (Reads.zoom (hfull _ _ hv.kv))
    apply Reads.bind (Reads.zoom (hfull _ _ hv.score))
    by_cases h4 : ratio = 4
    · have himul := Nat.mul_le_mul_right m.nIndexerHeadDim (Nat.le_trans hv.nIndexComp hcap)
      rw [if_pos h4, if_pos h4, if_pos h4, List.append_assoc]
      apply Reads.bind (Reads.zoom (payloadReadTensorSpan_reads _ hv.index (by omega)))
      apply Reads.bind (Reads.zoom (hfull _ _ hv.indexKv))
      exact Reads.zoom (hfull _ _ hv.indexScore)
    · rw [if_neg h4, if_neg h4, if_neg h4]
      exact Reads.pure () _

theorem loadCpuLayer_reads {cap ratio : Nat} {raw : List Bytes} {v : LayerView} (hv : v.Sized m ratio cap)
    (hw : ∀ r ∈ raw, r.length = rowBytes m) (l : CpuLayer m ctx ratio) :
    Reads (loadCpuLayer raw.length v.nComp v.nIndexComp) l (layerPayload ratio raw v) ()
      (if ratio = 0 then
        { l with toLayerStore := l.toLayerStore.restore (l.rawCache.write 0 raw.flatten) v, nRaw := raw.length }
      else
        { l with toLayerStore := { l.toLayerStore.restore (l.rawCache.write 0 raw.flatten) v with
                   nComp := v.nComp, nIndexComp := v.nIndexComp }
                 nRaw := raw.length }) := by
  have hflat : raw.flatten.length = raw.length * m.nHeadDim * 4 := by
    rw [List.length_flatten, List.map_congr_left hw]
    simp [rowBytes, Nat.mul_assoc]
  rw [loadCpuLayer, layerPayload]
  apply Reads.bind (Reads.zoom (Reads.zoom (payloadReadInto_reads _ hflat)))
  apply Reads.bind_nil (Reads.update _ _)
  by_cases h0 : ratio = 0
  · rw [if_pos h0, if_pos h0, if_pos h0, LayerStore.restore, if_pos h0]
    exact Reads.pure () _
  · rw [if_neg h0, if_neg h0, if_neg h0, LayerStore.restore, if_neg h0, List.append_assoc, List.append_assoc]
    apply Reads.bind_nil (Reads.update _ _)
    apply Reads.bind (Reads.zoom (Reads.zoom (payloadReadInto_reads _ hv.comp)))
    apply Reads.bind (Reads.zoom (Reads.zoom (payloadReadInto_reads _ hv.kv)))
    apply Reads.bind (Reads.zoom (Reads.zoom (payloadReadInto_reads _ hv.score)))
    by_cases h4 : ratio = 4
    · rw [if_pos h4, if_pos h4, if_pos h4, List.append_assoc]
      apply Reads.bind (Reads.zoom (Reads.zoom (payloadReadInto_reads _ hv.index)))
      apply Reads.bind (Reads.zoom (Reads.zoom (payloadReadInto_reads _ hv.indexKv)))
      exact Reads.zoom (Reads.zoom (payloadReadInto_reads _ hv.indexScore))
    · rw [if_neg h4, if_neg h4, if_neg h4]
      exact Reads.pure () _

end

/-! ## The whole payload -/

section
variable {c d : Nat}

/-- The destination holds what the source held: tokens, logits and, layer by
    layer, the window's raw rows at the slots the destination reads, the row
    counts, the compressed and index rows and the compressor's partial window. -/
structure Restores (src : Session m c) (dst : Session m d) : Prop where
  valid : dst.checkpointValid = true
  checkpoint : dst.checkpoint = src.checkpoint
  logits : dst.logits = src.logits
  rawRow : ∀ il < m.nLayer, ∀ pos < src.checkpoint.length,
    src.checkpoint.length ≤ pos + min (defaultRawCap m c) src.checkpoint.length →
      dst.rawRow il pos = src.rawRow il pos
  counts : ∀ il < m.nLayer, m.ratio il ≠ 0 → dst.nComp il = src.nComp il ∧ dst.nIndexComp il = src.nIndexComp il
  comp : ∀ il < m.nLayer, m.ratio il ≠ 0 → (dst.view il).comp = asStored dst.f16 (src.view il).comp
  comp_exact : ∀ il < m.nLayer, m.ratio il ≠ 0 → (dst.f16 = true → src.f16 = true) → NoNaN (src.view il).comp →
    (dst.view il).comp = (src.view il).comp
  state : ∀ il < m.nLayer, m.ratio il ≠ 0 → (dst.view il).kv = (src.view il).kv ∧ (dst.view il).score = (src.view il).score
  index : ∀ il < m.nLayer, m.ratio il = 4 → (dst.view il).index = (src.view il).index ∧
    (dst.view il).indexKv = (src.view il).indexKv ∧ (dst.view il).indexScore = (src.view il).indexScore

/-- Every header word fits its four bytes, but for the prefill chunk nothing reads. -/
theorem payloadHeader_read {s : Session m c} (hs : s.Ok) {i : Nat} (hi : i < 13) (h3 : i ≠ 3) :
    s.payloadHeader.getD i 0 < 2 ^ 32 := by
  have hctx := s.ctx_int
  have hlive := s.rawLive_eq
  have hshort := hs.short
  have hcap : s.rawCap ≤ c := by
    rw [Session.rawCap]
    cases s.cache with
    | cpu _ => exact defaultRawCap_le m s.ctx_pos
    | graph g => exact g.rawCap_le
  have hwin := defaultRawCap_le m s.ctx_pos
  have hcomp : s.compCap = c / 4 + 2 := by
    rw [Session.compCap]
    cases s.cache with
    | cpu _ => exact sessionCpuCompCap_eq m c
    | graph g => rw [graphCompCap, minRatio_eq]
  obtain ⟨h8, h11, h9, h10⟩ := m.u32
  rw [Session.payloadHeader]
  match i, hi, h3 with
  | 0, _, _ => exact (by decide : payloadMagic < 2 ^ 32)
  | 1, _, _ => exact (by decide : payloadVersion < 2 ^ 32)
  | 2, _, _ | 4, _, _ | 5, _, _ | 6, _, _ | 7, _, _ | 12, _, _ => simp; omega
  | 8, _, _ => simpa using h8
  | 9, _, _ => simpa using h9
  | 10, _, _ => simpa using h10
  | 11, _, _ => simpa using h11

/-- What the reader has of the header. -/
theorem header_get {s : Session m c} (hs : s.Ok) {i : Nat} (hi : i < 13) (h3 : i ≠ 3) :
    (s.payloadHeader.map (· % 2 ^ 32)).getD i 0 = s.payloadHeader.getD i 0 := by
  have hlt := payloadHeader_read hs hi h3
  have hlen : i < s.payloadHeader.length := hi
  rw [List.getD_eq_getElem _ _ (by simpa using hlen), List.getElem_map]
  rw [List.getD_eq_getElem _ _ hlen] at hlt ⊢
  exact Nat.mod_eq_of_lt hlt

theorem checkHeader_reads {s : σ} {rawCap compCap : Nat} {h : Nat → Nat} (hctx : h 2 ≤ d) (htok : h 7 < d)
    (hshape : h 8 = m.nLayer ∧ h 9 = m.nHeadDim ∧ h 10 = m.nIndexerHeadDim ∧ h 11 = m.nVocab)
    (hwin : h 5 = defaultRawCap m d) (hlive : h 12 = min (h 5) (h 7)) (hsaved : h 12 ≤ h 4) (hpos : 0 < h 4)
    (hraw : h 12 ≤ rawCap) (hcomp : h 6 ≤ compCap) : Reads (checkHeader m d rawCap compCap h) s [] () s := by
  obtain ⟨h8, h9, h10, h11⟩ := hshape
  rw [checkHeader]
  apply Reads.bind_nil (Reads.passes (by omega) s)
  apply Reads.bind_nil (Reads.passes (by omega) s)
  apply Reads.bind_nil (Reads.passes (by omega) s)
  apply Reads.bind_nil (Reads.passes (by split_ifs <;> omega) s)
  exact Reads.passes (by omega) s

theorem readCounts_reads {savedCap : Nat} {cap n : Nat → Nat} {e : String} (s : σ)
    (hn : ∀ il < m.nLayer, n il ≤ savedCap ∧ n il ≤ cap il ∧ n il < 2 ^ 32) :
    Reads (readCounts m savedCap cap e) s ((List.range m.nLayer).flatMap fun il => putU32 (n il))
      ((List.range m.nLayer).map n) s := by
  apply Reads.mapM
  intro il hil s
  obtain ⟨hsaved, hcap, hlt⟩ := hn il (List.mem_range.mp hil)
  have hread := payloadReadU32_reads s (n il)
  rw [Nat.mod_eq_of_lt hlt] at hread
  exact Reads.bind_last hread (Reads.bind_nil (Reads.passes (by omega) s) (Reads.pure (n il) s))

theorem readToken_reads (s : σ) (t : Int32) :
    Reads (do let t ← payloadReadU32; return (UInt32.ofNat t).toInt32) s (putU32 t.toUInt32.toNat) t s := by
  have h := Reads.bind_last (f := fun t => Pure.pure (UInt32.ofNat t).toInt32)
    (payloadReadU32_reads s t.toUInt32.toNat) (Reads.pure _ s)
  have hback : (UInt32.ofNat (t.toUInt32.toNat % 2 ^ 32)).toInt32 = t := by
    rw [Nat.mod_eq_of_lt t.toUInt32.toNat_lt]
    simp
  rwa [hback] at h

/-- Tokens, logits and counts as the writer puts them. -/
def checkpointBytes (src : Session m c) : Bytes :=
  (src.checkpoint.map fun t => t.toUInt32.toNat).flatMap putU32 ++ src.logits.bytes ++
    (List.range m.nLayer).flatMap (fun il => putU32 (src.nComp il)) ++
    (List.range m.nLayer).flatMap (fun il => putU32 (src.nIndexComp il))

theorem readCheckpoint_reads {src : Session m c} {h cap : Nat → Nat} (s : Session m d)
    (htok : h 7 = src.checkpoint.length)
    (hc : ∀ il < m.nLayer, src.nComp il ≤ h 6 ∧ src.nComp il ≤ cap il ∧ src.nComp il < 2 ^ 32)
    (hi : ∀ il < m.nLayer, src.nIndexComp il ≤ h 6 ∧ src.nIndexComp il ≤ cap il ∧ src.nIndexComp il < 2 ^ 32) :
    Reads (readCheckpoint h cap) s (checkpointBytes src)
      (src.checkpoint, (List.range m.nLayer).map src.nComp, (List.range m.nLayer).map src.nIndexComp)
      { s with logits := src.logits } := by
  have hlogits : s.logits.write 0 src.logits.bytes = src.logits := Buf.ext (Buf.write_full _ src.logits.size)
  have htokens := Reads.times (s := s) (l := src.checkpoint) (e := fun t => putU32 t.toUInt32.toNat)
    (v := fun t => t) (r := do let t ← payloadReadU32; return (UInt32.ofNat t).toInt32)
    fun t _ => readToken_reads s t
  rw [List.map_id'] at htokens
  rw [readCheckpoint, checkpointBytes, List.flatMap_map, htok, List.append_assoc, List.append_assoc]
  apply Reads.bind htokens
  apply Reads.bind (Reads.zoom (payloadReadInto_reads _ src.logits.size))
  rw [hlogits]
  apply Reads.bind (readCounts_reads _ hc)
  exact Reads.bind_last (readCounts_reads _ hi) (Reads.pure _ _)

theorem loadLayers_reads {γ : Nat → Type} {r : (il : Nat) → Loader (γ il) Unit} {b : Nat → Bytes}
    {t : (il : Nat) → γ il → γ il} (h : ∀ il < m.nLayer, ∀ l, Reads (r il) l (b il) () (t il l))
    (f : (il : Nat) → γ il) :
    Reads (loadLayers m r) f ((List.range m.nLayer).flatMap b) ()
      (fun il => if il < m.nLayer then t il (f il) else f il) := by
  have hrun := Reads.forM (l := List.range m.nLayer) (b := b)
    (f := fun il => Loader.zoom (fun f => f il) (fun l f => Function.update f il l) (r il))
    (t := fun il f => Function.update f il (t il (f il)))
    (fun il hil f => Reads.zoom (h il (List.mem_range.mp hil) (f il))) f
  have hfold : (List.range m.nLayer).foldl (fun s i => Function.update s i (t i (s i))) f =
      fun il => if il < m.nLayer then t il (f il) else f il :=
    funext fun il => foldl_range_update t f m.nLayer il
  rwa [hfold] at hrun

theorem payloadEnd_reads (f : σ → σ) (s : σ) :
    ReadsAll (do payloadEnd; Loader.update f) s [] () (f s) := by
  intro tail
  simp only [List.length_nil, List.nil_append]
  rfl

/-! ## Loading what was saved -/

/-- The layers as the writer puts them. -/
def layersBytes (src : Session m c) : Bytes :=
  (List.range m.nLayer).flatMap fun il => layerPayload (m.ratio il) (src.rawRows il) (src.view il)

theorem length_rawRows (src : Session m c) (il : Nat) : (src.rawRows il).length = src.rawLive := by
  simp [Session.rawRows]

theorem rawRows_width {src : Session m c} (hs : src.Ok) {il : Nat} (hil : il < m.nLayer) :
    ∀ r ∈ src.rawRows il, r.length = rowBytes m := by
  intro r hr
  have hlive := src.rawLive_eq
  obtain ⟨i, hi, rfl⟩ := List.mem_map.mp hr
  rw [List.mem_range] at hi
  exact Session.length_rawRow hs hil (by omega) (by omega)

theorem rawRows_get (src : Session m c) (il : Nat) {i : Nat} (hi : i < src.rawLive) :
    (src.rawRows il).getD i [] = src.rawRow il (src.checkpoint.length - src.rawLive + i) := by
  rw [List.getD_eq_getElem _ _ (by rwa [length_rawRows])]
  simp [Session.rawRows]

theorem counts_get (f : Nat → Nat) {n il : Nat} (h : il < n) : ((List.range n).map f).getD il 0 = f il := by
  rw [List.getD_eq_getElem _ _ (by simpa using h)]
  simp

theorem view_counts (src : Session m c) (il : Nat) :
    (src.view il).nComp = src.nComp il ∧ (src.view il).nIndexComp = src.nIndexComp il := by
  rw [Session.view, Session.nComp, Session.nIndexComp]
  cases src.cache <;> exact ⟨rfl, rfl⟩

/-- A CPU cache filled from `src`. -/
def cpuRestored (src : Session m c) (d il : Nat) : CpuLayer m d (m.ratio il) :=
  let l := kvCacheInit m d il
  let v := src.view il
  if m.ratio il = 0 then
    { l with
      toLayerStore := l.toLayerStore.restore (l.rawCache.write 0 (src.rawRows il).flatten) v
      nRaw := (src.rawRows il).length }
  else
    { l with
      toLayerStore := { l.toLayerStore.restore (l.rawCache.write 0 (src.rawRows il).flatten) v with
        nComp := v.nComp, nIndexComp := v.nIndexComp }
      nRaw := (src.rawRows il).length }

/-- A graph's layer filled from `src`. -/
def graphRestored (src : Session m c) (g : Graph m d) (il : Nat) : LayerStore m d g.rawCap g.f16 (m.ratio il) :=
  (g.layer il).restore (ringWrite (src.checkpoint.length - (src.rawRows il).length) g.rawCap (rowBytes m)
    (src.rawRows il) (g.layer il).rawCache) (src.view il)

section
variable {src : Session m c} (hs : src.Ok) (hcd : c ≤ d) (hwin : defaultRawCap m c = defaultRawCap m d)
  {h : Nat → Nat} (hh : ∀ i < 13, i ≠ 3 → h i = src.payloadHeader.getD i 0)
include hs hcd hh

include hwin in
theorem header_passes (dst : Session m d) {rawCap : Nat} (hraw : defaultRawCap m d ≤ rawCap) {compCap : Nat}
    (hcomp : compCap = d / 4 + 2) : Reads (checkHeader m d rawCap compCap h) dst [] () dst := by
  have hlive := src.rawLive_eq
  have hshort := hs.short
  have hsrc : src.rawLive ≤ src.rawCap ∧ 0 < src.rawCap := by
    have hpos : 0 < defaultRawCap m c := by
      simp only [defaultRawCap]
      split_ifs <;> omega
    rw [Session.rawCap]
    cases src.cache with
    | cpu _ => exact ⟨by simp only; omega, hpos⟩
    | graph g =>
      have := g.window_le
      exact ⟨by simp only; omega, by simp only; omega⟩
  have hsaved : src.compCap = c / 4 + 2 := by
    rw [Session.compCap]
    cases src.cache with
    | cpu _ => exact sessionCpuCompCap_eq m c
    | graph g => rw [graphCompCap, minRatio_eq]
  have h2 : h 2 = c := hh 2 (by decide) (by decide)
  have h4 : h 4 = src.rawCap := hh 4 (by decide) (by decide)
  have h5 : h 5 = defaultRawCap m c := hh 5 (by decide) (by decide)
  have h6 : h 6 = src.compCap := hh 6 (by decide) (by decide)
  have h7 : h 7 = src.checkpoint.length := hh 7 (by decide) (by decide)
  have h12 : h 12 = src.rawLive := hh 12 (by decide) (by decide)
  have hdiv : c / 4 ≤ d / 4 := Nat.div_le_div_right hcd
  exact checkHeader_reads (by omega) (by omega)
    ⟨hh 8 (by decide) (by decide), hh 9 (by decide) (by decide), hh 10 (by decide) (by decide),
      hh 11 (by decide) (by decide)⟩ (by omega) (by omega) (by omega) (by omega) (by omega) (by omega)

theorem checkpoint_read (dst : Session m d) {cap : Nat → Nat}
    (hcap : ∀ il, layerCompCap d (m.ratio il) ≤ cap il) :
    Reads (readCheckpoint h cap) dst (checkpointBytes src)
      (src.checkpoint, (List.range m.nLayer).map src.nComp, (List.range m.nLayer).map src.nIndexComp)
      { dst with logits := src.logits } := by
  have hsaved : h 6 = c / 4 + 2 := by
    rw [hh 6 (by decide) (by decide)]
    show src.compCap = _
    rw [Session.compCap]
    cases src.cache with
    | cpu _ => exact sessionCpuCompCap_eq m c
    | graph g => rw [graphCompCap, minRatio_eq]
  have hctx := src.ctx_int
  have hbound : ∀ {n il : Nat}, n ≤ layerCompCap c (m.ratio il) → n ≤ h 6 ∧ n ≤ cap il ∧ n < 2 ^ 32 := by
    intro n il hn
    have hle := layerCompCap_le m c il
    have hmono := layerCompCap_mono hcd (m.ratio il)
    have := hcap il
    omega
  exact readCheckpoint_reads dst (hh 7 (by decide) (by decide)) (fun il hil => hbound (hs.nComp il hil))
    fun il hil => hbound (hs.nIndexComp il hil)

include hwin in
theorem loadCpu_reads (dst : Session m d) :
    ReadsAll (loadCpu h) dst (checkpointBytes src ++ layersBytes src) ()
      { dst with
        checkpoint := src.checkpoint, checkpointValid := true, mtpDraftValid := false, logits := src.logits
        cache := .cpu fun il => if il < m.nLayer then cpuRestored src d il else kvCacheInit m d il } := by
  have h12 : h 12 = src.rawLive := hh 12 (by decide) (by decide)
  rw [loadCpu, ← List.nil_append (_ ++ _)]
  apply Reads.bind_all (header_passes hs hcd hwin hh dst (Nat.le_refl _) (sessionCpuCompCap_eq m d))
  apply Reads.bind_all (checkpoint_read hs hcd hh dst fun il => by
    rw [sessionCpuCompCap_eq]
    exact layerCompCap_le m d il)
  rw [← List.nil_append (layersBytes src)]
  apply Reads.bind_all (Reads.update _ _)
  rw [← List.append_nil (layersBytes src)]
  have hlayers := loadLayers_reads (m := m) (γ := fun il => CpuLayer m d (m.ratio il))
    (r := fun il => loadCpuLayer (h 12) (((List.range m.nLayer).map src.nComp).getD il 0)
      (((List.range m.nLayer).map src.nIndexComp).getD il 0))
    (b := fun il => layerPayload (m.ratio il) (src.rawRows il) (src.view il))
    (t := fun il l =>
      if m.ratio il = 0 then
        { l with
          toLayerStore := l.toLayerStore.restore (l.rawCache.write 0 (src.rawRows il).flatten) (src.view il)
          nRaw := (src.rawRows il).length }
      else
        { l with
          toLayerStore := { l.toLayerStore.restore (l.rawCache.write 0 (src.rawRows il).flatten) (src.view il) with
            nComp := (src.view il).nComp, nIndexComp := (src.view il).nIndexComp }
          nRaw := (src.rawRows il).length }) (fun il hil l => by
      rw [counts_get _ hil, counts_get _ hil, h12, ← (view_counts src il).1, ← (view_counts src il).2,
        ← length_rawRows src il]
      exact loadCpuLayer_reads (Session.view_sized hs hil) (rawRows_width hs hil) l)
    (kvCacheInit m d)
  apply Reads.bind_all (Reads.zoom hlayers)
  exact payloadEnd_reads _ _

include hwin in
theorem loadGraph_reads (dst : Session m d) (g : Graph m d) :
    ReadsAll (loadGraph g.f16 g h) dst (checkpointBytes src ++ layersBytes src) ()
      { dst with
        checkpoint := src.checkpoint, checkpointValid := true, mtpDraftValid := false, logits := src.logits
        cache := loadGraph.setCounters ((List.range m.nLayer).map src.nComp) ((List.range m.nLayer).map src.nIndexComp)
          (.graph { g with
            layer := fun il => if il < m.nLayer then graphRestored src g il else g.layer il
            mtpNRaw := 0 }) } := by
  have h7 : h 7 = src.checkpoint.length := hh 7 (by decide) (by decide)
  have h12 : h 12 = src.rawLive := hh 12 (by decide) (by decide)
  have hpos : 0 < g.rawCap := by
    have := g.window_le
    simp only [defaultRawCap] at this
    split_ifs at this <;> omega
  rw [loadGraph, ← List.nil_append (_ ++ _)]
  apply Reads.bind_all (header_passes hs hcd hwin hh dst g.window_le (by rw [graphCompCap, minRatio_eq]))
  apply Reads.bind_all (checkpoint_read hs hcd hh dst fun il => Nat.le_refl _)
  rw [← List.nil_append (layersBytes src)]
  apply Reads.bind_all (Reads.update _ _)
  rw [← List.append_nil (layersBytes src)]
  have hlayers := loadLayers_reads (m := m) (γ := fun il => LayerStore m d g.rawCap g.f16 (m.ratio il))
    (r := fun il => loadGraphLayer g.f16 (h 7) (h 12) (((List.range m.nLayer).map src.nComp).getD il 0)
      (((List.range m.nLayer).map src.nIndexComp).getD il 0))
    (b := fun il => layerPayload (m.ratio il) (src.rawRows il) (src.view il))
    (t := fun il l => l.restore (ringWrite (src.checkpoint.length - (src.rawRows il).length) g.rawCap (rowBytes m)
      (src.rawRows il) l.rawCache) (src.view il)) (fun il hil l => by
      rw [counts_get _ hil, counts_get _ hil, h7, h12, ← (view_counts src il).1, ← (view_counts src il).2,
        ← length_rawRows src il]
      exact loadGraphLayer_reads (Session.view_sized hs hil) (layerCompCap_mono hcd _) hpos (rawRows_width hs hil) l)
    g.layer
  apply Reads.bind_all (Reads.zoom hlayers)
  exact payloadEnd_reads _ _

end

theorem savePayload_eq {src : Session m c} (hs : src.Ok) {compF16 : Bool} (hf : src.KeepsType compF16) :
    src.savePayload compF16 = .ok (src.payloadHeader.flatMap putU32 ++ (checkpointBytes src ++ layersBytes src)) := by
  have hlayers : (List.range m.nLayer).mapM (src.saveLayer compF16) = .ok ((List.range m.nLayer).map fun il =>
      layerPayload (m.ratio il) (src.rawRows il) (src.view il)) :=
    mapM_ok fun il hil => Session.saveLayer_eq hs hf (List.mem_range.mp hil)
  have hflat : ((List.range m.nLayer).map fun il => layerPayload (m.ratio il) (src.rawRows il) (src.view il)).flatten =
      layersBytes src := rfl
  rw [Session.savePayload, if_neg (by simp [hs.valid]), hlayers]
  show Except.ok _ = _
  rw [hflat, checkpointBytes]
  simp only [List.append_assoc]

theorem length_flatMap_put {ι : Type} (l : List ι) (f : ι → Nat) :
    (l.flatMap fun i => putU32 (f i)).length = l.length * 4 := by
  simp [List.length_flatMap]

theorem length_saved {src : Session m c} (hs : src.Ok) :
    (src.payloadHeader.flatMap putU32 ++ (checkpointBytes src ++ layersBytes src)).length = src.payloadBytes := by
  have hlayers : (layersBytes src).length = ((List.range m.nLayer).map src.layerLiveBytes).sum := by
    rw [layersBytes, List.length_flatMap]
    congr 1
    apply List.map_congr_left
    intro il hil
    have hil := List.mem_range.mp hil
    rw [length_layerPayload (Session.view_sized hs hil) (length_rawRows src il) (rawRows_width hs hil),
      (view_counts src il).1, (view_counts src il).2, Session.layerLiveBytes, rowBytes, Nat.mul_assoc src.rawLive]
  have hhead : (src.payloadHeader.flatMap putU32).length = 13 * 4 := length_flatMap_put src.payloadHeader id
  rw [List.length_append, List.length_append, hlayers, hhead, checkpointBytes, List.length_append,
    List.length_append, List.length_append, List.flatMap_map, length_flatMap_put, length_flatMap_put,
    length_flatMap_put, src.logits.size, Session.payloadBytes, if_neg (by simp [hs.valid]), List.length_range]
  omega

/-- A row of halves comes back from halves as it was. -/
theorem asStored_exact {src : Session m c} {f16 : Bool} (hf : f16 = true → src.f16 = true) {il : Nat}
    (hnan : NoNaN (src.view il).comp) : asStored f16 (src.view il).comp = (src.view il).comp := by
  cases f16 with
  | false => rfl
  | true =>
    have hsrc := hf rfl
    rw [Session.f16] at hsrc
    rw [Session.view] at hnan ⊢
    cases h : src.cache with
    | cpu layer =>
      rw [h] at hsrc
      cases hsrc
    | graph g =>
      rw [h] at hnan hsrc
      simp only [LayerStore.view, hsrc, if_true] at hnan ⊢
      exact widen_narrow_widen _ hnan

/-- A CPU session filled from `src`. -/
theorem cpu_restores {src : Session m c} (hs : src.Ok) (hcd : c ≤ d) (hwin : defaultRawCap m c = defaultRawCap m d)
    (dst : Session m d) :
    Restores src { dst with
      checkpoint := src.checkpoint, checkpointValid := true, mtpDraftValid := false, logits := src.logits
      cache := .cpu fun il => if il < m.nLayer then cpuRestored src d il else kvCacheInit m d il } := by
  have hlive := src.rawLive_eq
  have hview : ∀ {il : Nat}, il < m.nLayer → m.ratio il ≠ 0 → (cpuRestored src d il).toLayerStore =
      { (kvCacheInit m d il).toLayerStore.restore
          ((kvCacheInit m d il).rawCache.write 0 (src.rawRows il).flatten) (src.view il) with
        nComp := (src.view il).nComp, nIndexComp := (src.view il).nIndexComp } := by
    intro il hil hratio
    simp only [cpuRestored, if_neg hratio]
  have hall := fun {il : Nat} (hil : il < m.nLayer) (hratio : m.ratio il ≠ 0) =>
    LayerStore.restore_view ((kvCacheInit m d il).rawCache.write 0 (src.rawRows il).flatten)
      (Session.view_sized hs hil) (layerCompCap_mono hcd _) (kvCacheInit m d il).toLayerStore hratio
  have hcomp : ∀ il < m.nLayer, m.ratio il ≠ 0 → (cpuRestored src d il).view.comp = (src.view il).comp := by
    intro il hil hratio
    rw [hview hil hratio]
    exact (hall hil hratio).1
  refine ⟨rfl, rfl, rfl, ?_, ?_, ?_, ?_, ?_, ?_⟩
  · intro il hil pos hpos hlow
    obtain ⟨i, hi, rfl⟩ : ∃ i, i < src.rawLive ∧ pos = src.checkpoint.length - src.rawLive + i :=
      ⟨pos - (src.checkpoint.length - src.rawLive), by omega, by omega⟩
    have hraw : (cpuRestored src d il).rawCache.bytes.take (src.rawLive * rowBytes m) = (src.rawRows il).flatten ∧
        (cpuRestored src d il).nRaw = src.rawLive := by
      have hflat : (src.rawRows il).flatten.length = src.rawLive * rowBytes m := by
        rw [List.length_flatten, List.map_congr_left (rawRows_width hs hil), ← length_rawRows src il]
        simp
      have hmul := Nat.mul_le_mul_right (rowBytes m) (show src.rawLive ≤ defaultRawCap m d by omega)
      have hself := @Buf.span_write_self _ (kvCacheInit m d il).rawCache 0 (src.rawRows il).flatten (by omega)
      rw [hflat] at hself
      refine ⟨?_, ?_⟩
      · rw [← hself, cpuRestored, span, List.drop_zero]
        by_cases h0 : m.ratio il = 0
        · simp only [if_pos h0, LayerStore.restore]
        · by_cases h4 : m.ratio il = 4
          · simp only [if_neg h0, if_pos h4, LayerStore.restore]
          · simp only [if_neg h0, if_neg h4, LayerStore.restore]
      · rw [← length_rawRows src il, cpuRestored]
        split_ifs <;> rfl
    have hslot : src.rawLive - (src.checkpoint.length - (src.checkpoint.length - src.rawLive + i)) = i := by omega
    have hrow := span_flatten (rawRows_width hs hil) (by rwa [length_rawRows])
      ((cpuRestored src d il).rawCache.bytes.drop (src.rawLive * rowBytes m)) (i := i)
    rw [← hraw.1, List.take_append_drop] at hrow
    rw [← rawRows_get src il hi, ← hrow]
    simp only [Session.rawRow, if_pos hil]
    rw [hraw.2, hslot]
  · intro il hil hratio
    simp only [Session.nComp, Session.nIndexComp, if_pos hil]
    rw [hview hil hratio]
    exact view_counts src il
  · intro il hil hratio
    simp only [Session.view, if_pos hil]
    exact hcomp il hil hratio
  · intro il hil hratio _ _
    simp only [Session.view, if_pos hil]
    exact hcomp il hil hratio
  · intro il hil hratio
    simp only [Session.view, if_pos hil]
    rw [hview hil hratio]
    exact ⟨(hall hil hratio).2.1, (hall hil hratio).2.2.1⟩
  · intro il hil h4
    have hratio : m.ratio il ≠ 0 := by omega
    simp only [Session.view, if_pos hil]
    rw [hview hil hratio]
    exact (hall hil hratio).2.2.2 h4

/-- A graph session filled from `src`. -/
theorem graph_restores {src : Session m c} (hs : src.Ok) (hcd : c ≤ d) (hwin : defaultRawCap m c = defaultRawCap m d)
    (dst : Session m d) (g : Graph m d) :
    Restores src { dst with
      checkpoint := src.checkpoint, checkpointValid := true, mtpDraftValid := false, logits := src.logits
      cache := loadGraph.setCounters ((List.range m.nLayer).map src.nComp) ((List.range m.nLayer).map src.nIndexComp)
        (.graph { g with
          layer := fun il => if il < m.nLayer then graphRestored src g il else g.layer il
          mtpNRaw := 0 }) } := by
  have hlive := src.rawLive_eq
  have hlayer : ∀ {il : Nat}, il < m.nLayer →
      (if il < m.nLayer then
        { (if il < m.nLayer then graphRestored src g il else g.layer il) with
          nComp := ((List.range m.nLayer).map src.nComp).getD il 0
          nIndexComp := ((List.range m.nLayer).map src.nIndexComp).getD il 0 }
        else if il < m.nLayer then graphRestored src g il else g.layer il) =
      { graphRestored src g il with nComp := (src.view il).nComp, nIndexComp := (src.view il).nIndexComp } := by
    intro il hil
    rw [if_pos hil, if_pos hil, counts_get _ hil, counts_get _ hil, (view_counts src il).1, (view_counts src il).2]
  have hall := fun {il : Nat} (hil : il < m.nLayer) (hratio : m.ratio il ≠ 0) =>
    LayerStore.restore_view (ringWrite (src.checkpoint.length - (src.rawRows il).length) g.rawCap (rowBytes m)
      (src.rawRows il) (g.layer il).rawCache) (Session.view_sized hs hil) (layerCompCap_mono hcd _) (g.layer il) hratio
  have hraw : ∀ il, (graphRestored src g il).rawCache = ringWrite (src.checkpoint.length - (src.rawRows il).length)
      g.rawCap (rowBytes m) (src.rawRows il) (g.layer il).rawCache := by
    intro il
    rw [graphRestored]
    by_cases h0 : m.ratio il = 0
    · simp only [if_pos h0, LayerStore.restore]
    · by_cases h4 : m.ratio il = 4
      · simp only [if_neg h0, if_pos h4, LayerStore.restore]
      · simp only [if_neg h0, if_neg h4, LayerStore.restore]
  refine ⟨rfl, rfl, rfl, ?_, ?_, ?_, ?_, ?_, ?_⟩
  · intro il hil pos hpos hlow
    obtain ⟨i, hi, rfl⟩ : ∃ i, i < src.rawLive ∧ pos = src.checkpoint.length - src.rawLive + i :=
      ⟨pos - (src.checkpoint.length - src.rawLive), by omega, by omega⟩
    have hcap : (src.rawRows il).length ≤ g.rawCap := by
      have := g.window_le
      rw [length_rawRows]
      omega
    rw [← rawRows_get src il hi]
    simp only [Session.rawRow, loadGraph.setCounters]
    rw [hlayer hil]
    simp only [hraw]
    rw [← length_rawRows src il]
    exact span_ringWrite _ hcap (rawRows_width hs hil) (by rwa [length_rawRows])
  · intro il hil _
    simp only [Session.nComp, Session.nIndexComp, loadGraph.setCounters]
    rw [hlayer hil]
    exact view_counts src il
  · intro il hil hratio
    simp only [Session.view, Session.f16, loadGraph.setCounters]
    rw [hlayer hil]
    exact (hall hil hratio).1
  · intro il hil hratio hf hnan
    simp only [Session.view, Session.f16, loadGraph.setCounters] at hf ⊢
    rw [hlayer hil]
    exact (hall hil hratio).1.trans (asStored_exact hf hnan)
  · intro il hil hratio
    simp only [Session.view, loadGraph.setCounters]
    rw [hlayer hil]
    exact ⟨(hall hil hratio).2.1, (hall hil hratio).2.2.1⟩
  · intro il hil h4
    simp only [Session.view, loadGraph.setCounters]
    rw [hlayer hil]
    exact (hall hil (by omega)).2.2.2 h4

theorem loadHeader_reads (src : Session m c) (dst : Session m d) :
    Reads (Loader.times 13 payloadReadU32) dst (src.payloadHeader.flatMap putU32)
      (src.payloadHeader.map (· % 2 ^ 32)) dst :=
  Reads.times (l := src.payloadHeader) fun v _ => payloadReadU32_reads dst v

theorem header_known {src : Session m c} (hs : src.Ok) :
    ¬((src.payloadHeader.map (· % 2 ^ 32)).getD 0 0 ≠ payloadMagic ∨
      (src.payloadHeader.map (· % 2 ^ 32)).getD 1 0 ≠ payloadVersion) := by
  rw [header_get hs (by decide) (by decide), header_get hs (by decide) (by decide)]
  simp [Session.payloadHeader]

/-- A payload goes from any valid session into any session of the model with no
    smaller context and the same window, to the byte. -/
theorem payload_roundTrip (src : Session m c) (dst : Session m d) (hs : src.Ok) (hcd : c ≤ d)
    (hwin : defaultRawCap m c = defaultRawCap m d) {srcF16 dstF16 : Bool} (hsrc : src.KeepsType srcF16)
    (hdst : dst.KeepsType dstF16) (rest : Bytes) :
    ∃ bytes dst', src.savePayload srcF16 = .ok bytes ∧ bytes.length = src.payloadBytes ∧
      dst.loadPayload dstF16 bytes.length (bytes ++ rest) = (.ok (), dst', rest) ∧ Restores src dst' := by
  have hload : ∃ dst', ReadsAll (loadSession dstF16 dst.cache) dst
      (src.payloadHeader.flatMap putU32 ++ (checkpointBytes src ++ layersBytes src)) () dst' ∧ Restores src dst' := by
    have hh : ∀ i < 13, i ≠ 3 → (src.payloadHeader.map (· % 2 ^ 32)).getD i 0 = src.payloadHeader.getD i 0 :=
      fun i hi h3 => header_get hs hi h3
    rw [Session.KeepsType] at hdst
    cases h : dst.cache with
    | cpu layer =>
      refine ⟨_, ?_, cpu_restores hs hcd hwin dst⟩
      apply Reads.bind_all (loadHeader_reads src dst)
      rw [← List.nil_append (checkpointBytes src ++ layersBytes src)]
      apply Reads.bind_all (Reads.passes (header_known hs) dst)
      exact loadCpu_reads hs hcd hwin hh dst
    | graph g =>
      rw [h] at hdst
      subst hdst
      refine ⟨_, ?_, graph_restores hs hcd hwin dst g⟩
      apply Reads.bind_all (loadHeader_reads src dst)
      rw [← List.nil_append (checkpointBytes src ++ layersBytes src)]
      apply Reads.bind_all (Reads.passes (header_known hs) dst)
      exact loadGraph_reads hs hcd hwin hh dst g
  obtain ⟨dst', hreads, hrestores⟩ := hload
  refine ⟨_, dst', savePayload_eq hs hsrc, length_saved hs, ?_, hrestores⟩
  rw [Session.loadPayload, hreads rest]

/-- A short context keeps a shorter window. -/
def sampleSession (ctx : Nat) (hpos : 0 < ctx) (hint : ctx < 2 ^ 31) : Session shapeFlash ctx where
  ctx_pos := hpos
  ctx_int := hint
  prefillCap := ctx
  checkpoint := [5]
  checkpointValid := true
  mtpDraftValid := false
  logits := .zero _
  cache := .graph (metalGraphAllocRawCap shapeFlash 256 hpos false)

theorem sampleSession_ok {ctx : Nat} (hpos : 0 < ctx) (hint : ctx < 2 ^ 31) (hlen : 1 < ctx) :
    (sampleSession ctx hpos hint).Ok :=
  ⟨rfl, hlen, fun _ _ => Nat.zero_le _, fun _ _ => Nat.zero_le _, fun _ h => by cases h⟩

theorem payload_roundTrip_sample :
    ∃ bytes dst', (sampleSession 200 (by decide) (by decide)).savePayload false = .ok bytes ∧
      bytes.length = (sampleSession 200 (by decide) (by decide)).payloadBytes ∧
      (sampleSession 300 (by decide) (by decide)).loadPayload false bytes.length (bytes ++ [7]) = (.ok (), dst', [7]) ∧
      Restores (sampleSession 200 (by decide) (by decide)) dst' :=
  payload_roundTrip (sampleSession 200 (by decide) (by decide)) (sampleSession 300 (by decide) (by decide))
    (sampleSession_ok (by decide) (by decide) (by decide)) (by decide)
    (by decide : defaultRawCap shapeFlash 200 = defaultRawCap shapeFlash 300) (rfl : false = false)
    (rfl : false = false) [7]

theorem checkHeader_window (rawCap compCap : Nat) {h : Nat → Nat} (hctx : h 2 ≤ d) (htok : h 7 < d)
    (hshape : h 8 = m.nLayer ∧ h 9 = m.nHeadDim ∧ h 10 = m.nIndexerHeadDim ∧ h 11 = m.nVocab)
    (hwin : h 5 ≠ defaultRawCap m d) (x : σ × Input) : checkHeader m d rawCap compCap h x =
      .error "KV checkpoint graph chunk layout does not match current runtime" x := by
  obtain ⟨h8, h9, h10, h11⟩ := hshape
  have hfit : ¬(h 2 > d ∨ h 7 ≥ d) := by omega
  simp only [checkHeader, Loader.refuse, hfit, h8, h9, h10, h11, hwin, ne_eq, not_true_eq_false, or_self, if_false,
    not_false_eq_true, if_true]
  rfl

/-- Another window is refused, before anything of the session changes. -/
theorem payload_window_refused (src : Session m c) (dst : Session m d) (hs : src.Ok) (hcd : c ≤ d)
    (hwin : defaultRawCap m c ≠ defaultRawCap m d) {srcF16 : Bool} (hsrc : src.KeepsType srcF16) (dstF16 : Bool)
    (rest : Bytes) :
    ∃ bytes, src.savePayload srcF16 = .ok bytes ∧
      dst.loadPayload dstF16 bytes.length (bytes ++ rest) =
        (.error "KV checkpoint graph chunk layout does not match current runtime", dst,
          checkpointBytes src ++ layersBytes src ++ rest) := by
  refine ⟨_, savePayload_eq hs hsrc, ?_⟩
  have hshort := hs.short
  have hh : ∀ i < 13, i ≠ 3 → (src.payloadHeader.map (· % 2 ^ 32)).getD i 0 = src.payloadHeader.getD i 0 :=
    fun i hi h3 => header_get hs hi h3
  have h2 : (src.payloadHeader.map (· % 2 ^ 32)).getD 2 0 = c := hh 2 (by decide) (by decide)
  have h5 : (src.payloadHeader.map (· % 2 ^ 32)).getD 5 0 = defaultRawCap m c := hh 5 (by decide) (by decide)
  have h7 : (src.payloadHeader.map (· % 2 ^ 32)).getD 7 0 = src.checkpoint.length := hh 7 (by decide) (by decide)
  have hcheck := fun (rawCap compCap : Nat) (x : Session m d × Input) =>
    checkHeader_window (m := m) (d := d) rawCap compCap (h := fun i => (src.payloadHeader.map (· % 2 ^ 32)).getD i 0)
      (by omega) (by omega)
      ⟨hh 8 (by decide) (by decide), hh 9 (by decide) (by decide), hh 10 (by decide) (by decide),
        hh 11 (by decide) (by decide)⟩ (by omega) x
  have hfails : loadSession dstF16 dst.cache (dst, ⟨(src.payloadHeader.flatMap putU32 ++
      (checkpointBytes src ++ layersBytes src)).length, src.payloadHeader.flatMap putU32 ++
        (checkpointBytes src ++ layersBytes src) ++ rest⟩) =
      .error "KV checkpoint graph chunk layout does not match current runtime"
        (dst, ⟨(checkpointBytes src ++ layersBytes src).length, checkpointBytes src ++ layersBytes src ++ rest⟩) := by
    apply Reads.bind_fails (loadHeader_reads src dst)
    rw [← List.nil_append (checkpointBytes src ++ layersBytes src)]
    apply Reads.bind_fails (Reads.passes (header_known hs) dst)
    cases dst.cache with
    | cpu _ =>
      show EStateM.bind _ _ _ = _
      rw [EStateM.bind, hcheck]
      rfl
    | graph g =>
      show EStateM.bind _ _ _ = _
      rw [EStateM.bind, hcheck]
      rfl
  rw [Session.loadPayload, hfails]

theorem payload_sample_refused :
    ∃ bytes dst' rest', (sampleSession 100 (by decide) (by decide)).savePayload false = .ok bytes ∧
      (sampleSession 200 (by decide) (by decide)).loadPayload false bytes.length (bytes ++ []) =
        (.error "KV checkpoint graph chunk layout does not match current runtime", dst', rest') := by
  obtain ⟨bytes, hsave, hload⟩ := payload_window_refused (sampleSession 100 (by decide) (by decide))
    (sampleSession 200 (by decide) (by decide)) (sampleSession_ok (by decide) (by decide) (by decide)) (by decide)
    (by decide : defaultRawCap shapeFlash 100 ≠ defaultRawCap shapeFlash 200) (rfl : false = false) false []
  exact ⟨bytes, _, _, hsave, hload⟩

end

end Ds4.Engine
