import Ds4.PosRing
import Ds4.Engine.Gguf

/- The raw sliding-window cache of ds4.c: which rows a query can read.

   Correspondence (C ↔ Lean):
     `ds4_prefill_cap_for_prompt`           ↔ `prefillCapForPrompt`
     `metal_graph_raw_cap_for_context`      ↔ `rawCapForContext`
     `metal_graph_alloc_raw_cap`            ↔ `allocRawCap`
     `metal_graph_raw_span_for_batch`, `metal_graph_raw_start_for_span` ↔ `rawSpanForBatch`, `rawStartForSpan`
     `metal_graph_encode_layer_attention_batch` ↔ `encodeBatch`
     `metal_graph_prefill_chunked_range`    ↔ `prefillChunkedRange`
   A row is the position it was written for and the prompt it belongs to (`Row`); a
   session is a run of prompts from zero, ranges after the tokens at hand, and decode
   steps (`Op`). A short prompt in one batch and a prefill by decode steps are cases of
   these; a cancelled range is a shorter one. The kernels read the rows of the logical
   window out of the span they are given.

   What is proved: the ring always has the last `raw_cap` positions (`run_live`); a
   batch covers its first query exactly when the batch and the window before it fit in
   the ring (`batch_covered_iff`); and every run of a session covers every query exactly
   when each aligned chunk fits (`ring_covers_iff`). -/
namespace Ds4.Engine
open PosRing

/-! ## Capacities -/

def nSwa : Nat := 128

def uint32 (v : Int) : Nat := (v % 4294967296).toNat

/-- The environment: `DS4_METAL_PREFILL_CHUNK` if it is set, with its number if it has one, and the
    number of `DS4_METAL_GRAPH_RAW_CAP`. -/
structure RingEnv where
  prefillChunk : Option (Option Int)
  rawCap : Option Int

/-- `pro` for the larger model, whose chunks are 8192 tokens long. -/
def prefillCapForPrompt (env : RingEnv) (pro : Bool) (promptLen requestedChunk : Nat) : Nat :=
  if promptLen = 0 then 1
  else
    let cap :=
      if requestedChunk ≠ 0 then requestedChunk
      else
        match env.prefillChunk with
        | some (some v) => if v ≤ 0 then promptLen else uint32 v
        | some none => promptLen
        | none => if promptLen > 4096 then (if pro then 8192 else 4096) else promptLen
    let cap := if cap = 0 then 1 else cap
    min cap promptLen

def rawWindowFor (ctxSize : Nat) : Nat :=
  let window := min nSwa ctxSize
  if window = 0 then 1 else window

def rawCapForContext (env : RingEnv) (ctxSize prefillCap : Nat) : Nat :=
  let window := rawWindowFor ctxSize
  let wanted := min (window + prefillCap) ctxSize
  let wanted := if wanted = 0 then 1 else wanted
  let cap := max (min (alignUp wanted 256) 8192) window
  match env.rawCap with
  | some v => if v > 0 then max (min (min (uint32 v) ctxSize) 8192) window else cap
  | none => cap

structure GpuGraph where
  rawCap : Nat
  rawWindow : Nat
  prefillCap : Nat

def allocRawCap (rawCap ctxSize prefillCap : Nat) : GpuGraph :=
  let rawCap := if rawCap = 0 then 1 else rawCap
  let ctxSize := if ctxSize = 0 then rawCap else ctxSize
  let prefillCap := if prefillCap = 0 then 1 else prefillCap
  let window := rawWindowFor ctxSize
  let rawCap := min (max rawCap window) ctxSize
  ⟨if rawCap = 0 then 1 else rawCap, window, prefillCap⟩

structure SessionArgs where
  env : RingEnv
  pro : Bool
  ctxSize : Nat
  prefillChunk : Nat
  ctxSize_pos : 0 < ctxSize
  ctxSize_int : ctxSize < 2 ^ 31

/-- The graph a session is created with. -/
def SessionArgs.graph (args : SessionArgs) : GpuGraph :=
  let prefillCap := prefillCapForPrompt args.env args.pro args.ctxSize args.prefillChunk
  allocRawCap (rawCapForContext args.env args.ctxSize prefillCap) args.ctxSize prefillCap

/-! ## Rows and queries -/

structure Row where
  prompt : Nat
  pos : Nat

/-- A query and the rows it reads. -/
structure Query where
  prompt : Nat
  pos : Nat
  rows : List (Option Row)

structure RawCache where
  prompt : Nat
  rows : Nat → Option Row

variable (g : GpuGraph)

def RawCache.store (c : RawCache) (pos n : Nat) : RawCache := { c with rows := putAll g.rawCap c.rows (Row.mk c.prompt) pos n }

def rawSpanForBatch (pos0 n : Nat) : Nat :=
  if g.rawCap = 0 ∨ n = 0 then 0
  else
    let window := if g.rawWindow ≠ 0 then g.rawWindow else nSwa
    let lastPos := pos0 + n - 1
    let needed := if n = 1 then n + (window - 1) else n + window
    min (min needed (lastPos + 1)) g.rawCap

def rawStartForSpan (lastPos nRaw : Nat) : Nat :=
  if g.rawCap = 0 ∨ nRaw = 0 then 0 else (lastPos + 1 - nRaw) % g.rawCap

/-- The rows the batch kernel reads for one query: of the `nRaw` rows before `pos0 + n` those of the window. -/
def batchRead (c : RawCache) (pos0 n pos : Nat) : List (Option Row) :=
  let nRaw := rawSpanForBatch g pos0 n
  let rawStart := rawStartForSpan g (pos0 + n - 1) nRaw
  let first := pos0 + n - nRaw
  let lo := max first (pos + 1 - g.rawWindow)
  read g.rawCap c.rows (rawStart + (lo - first)) (min (pos + 1 - lo) 256)

/-- The rows of one token's step, all of its span. -/
def stepRead (c : RawCache) (pos : Nat) : List (Option Row) :=
  let nRaw := rawSpanForBatch g pos 1
  read g.rawCap c.rows (rawStartForSpan g pos nRaw) nRaw

/-- A decode step, or one token of a batch that is larger than the ring. -/
def encodeToken (c : RawCache) (pos : Nat) : RawCache × Query :=
  let c := c.store g pos 1
  (c, ⟨c.prompt, pos, stepRead g c pos⟩)

def encodeTokens (c : RawCache) : List Nat → RawCache × List Query
  | [] => (c, [])
  | pos :: ps =>
    let (c, q) := encodeToken g c pos
    let (c, qs) := encodeTokens c ps
    (c, q :: qs)

/-- The rows of a batch that starts a prompt, read from the batch itself. -/
def batchRows (c : RawCache) (pos : Nat) : List (Option Row) :=
  (List.range' (pos + 1 - g.rawWindow) (min g.rawWindow (pos + 1))).map fun q => some ⟨c.prompt, q⟩

def encodeBatch (c : RawCache) (pos0 n : Nat) : RawCache × List Query :=
  if pos0 = 0 then
    (c.store g pos0 n, (List.range' pos0 n).map fun pos => ⟨c.prompt, pos, batchRows g c pos⟩)
  else if n ≤ g.rawCap then
    let c := c.store g pos0 n
    (c, (List.range' pos0 n).map fun pos => ⟨c.prompt, pos, batchRead g c pos0 n pos⟩)
  else encodeTokens g c (List.range' pos0 n)

/-! ## Ranges in chunks -/

/-- The length of the chunk at `pos0` of a range that began at `start`. -/
def chunkLen (start pos0 remaining : Nat) : Nat :=
  let chunkCap := if start ≠ 0 ∧ g.prefillCap > g.rawCap then g.rawCap else g.prefillCap
  let toBoundary := g.prefillCap - pos0 % g.prefillCap
  let localCap := if start ≠ 0 ∧ g.prefillCap ≠ 0 ∧ pos0 % g.prefillCap ≠ 0 ∧ toBoundary < chunkCap then toBoundary else chunkCap
  min remaining localCap

/-- The chunks of a range, `fuel` of them at most. -/
def chunksFrom (start : Nat) : Nat → Nat → Nat → List (Nat × Nat)
  | 0, _, _ => []
  | fuel + 1, pos0, remaining =>
    if remaining = 0 then []
    else
      let n := chunkLen g start pos0 remaining
      (pos0, n) :: chunksFrom start fuel (pos0 + n) (remaining - n)

/-- The chunks of `n` tokens from `start` on. -/
def rangeChunks (start n : Nat) : List (Nat × Nat) := chunksFrom g start n start n

def encodeChunks (c : RawCache) : List (Nat × Nat) → RawCache × List Query
  | [] => (c, [])
  | (pos0, n) :: chunks =>
    let (c, qs) := encodeBatch g c pos0 n
    let (c, qs') := encodeChunks c chunks
    (c, qs ++ qs')

def prefillChunkedRange (c : RawCache) (start n : Nat) : RawCache × List Query := encodeChunks g c (rangeChunks g start n)

/-! ## Sessions -/

inductive Op
  | restart (n : Nat)
  | extend (n : Nat)
  | decode

/-- The cache and the number of tokens in it. -/
structure RingState where
  cache : RawCache
  len : Nat

def RingState.init : RingState := ⟨⟨0, fun _ => none⟩, 0⟩

def step (s : RingState) : Op → RingState × List Query
  | .restart n =>
    let (c, qs) := prefillChunkedRange g { s.cache with prompt := s.cache.prompt + 1 } 0 n
    (⟨c, n⟩, qs)
  | .extend n =>
    let (c, qs) := prefillChunkedRange g s.cache s.len n
    (⟨c, s.len + n⟩, qs)
  | .decode =>
    let (c, q) := encodeToken g s.cache s.len
    (⟨c, s.len + 1⟩, [q])

def run (s : RingState) : List Op → List Query
  | [] => []
  | op :: ops => (step g s op).2 ++ run (step g s op).1 ops

/-- The tokens after each operation. -/
def lenAfter (len : Nat) : Op → Nat
  | .restart n => n
  | .extend n => len + n
  | .decode => len + 1

def Within (ctxSize : Nat) : Nat → List Op → Prop
  | _, [] => True
  | len, op :: ops => lenAfter len op ≤ ctxSize ∧ Within ctxSize (lenAfter len op) ops

/-- The query reads exactly the rows of its window, each of its own prompt. -/
def Query.Covered (q : Query) : Prop :=
  q.rows = (List.range' (q.pos + 1 - g.rawWindow) (min g.rawWindow (q.pos + 1))).map fun p => some ⟨q.prompt, p⟩

/-- A chunk and the window before it fit in the ring, or the chunk does not go through the ring as a batch. -/
def ChunkFits (chunk : Nat × Nat) : Prop :=
  chunk.1 = 0 ∨ g.rawCap < chunk.2 ∨ chunk.2 + min (g.rawWindow - 1) chunk.1 ≤ g.rawCap

def OpFits (len : Nat) : Op → Prop
  | .restart n => ∀ chunk ∈ rangeChunks g 0 n, ChunkFits g chunk
  | .extend n => ∀ chunk ∈ rangeChunks g len n, ChunkFits g chunk
  | .decode => True

def RunFits : Nat → List Op → Prop
  | _, [] => True
  | len, op :: ops => OpFits g len op ∧ RunFits (lenAfter len op) ops

/-! ## One step of one token -/

/-- What `metal_graph_alloc_raw_cap` guarantees. -/
structure GpuGraph.Valid : Prop where
  window_pos : 0 < g.rawWindow
  window_le : g.rawWindow ≤ g.rawCap
  window_small : g.rawWindow ≤ 256
  prefill_pos : 0 < g.prefillCap

/-- The cache has the last rows of the tokens in it. -/
def RawCache.LiveAt (c : RawCache) (len : Nat) : Prop := Live g.rawCap c.rows (Row.mk c.prompt) len

variable {g}

theorem stepRead_window (hg : g.Valid) {c : RawCache} {pos : Nat} (h : c.LiveAt g (pos + 1)) :
    stepRead g c pos =
      (List.range' (pos + 1 - g.rawWindow) (min g.rawWindow (pos + 1))).map fun p => some ⟨c.prompt, p⟩ := by
  obtain ⟨hpos, hle, -, -⟩ := hg
  have hspan : rawSpanForBatch g pos 1 = min g.rawWindow (pos + 1) := by
    rw [rawSpanForBatch, if_neg (by omega)]
    dsimp only
    rw [if_pos rfl, if_pos (by omega)]
    omega
  have hstart : rawStartForSpan g pos (min g.rawWindow (pos + 1)) = (pos + 1 - g.rawWindow) % g.rawCap := by
    rw [rawStartForSpan, if_neg (by omega)]
    congr 1
    omega
  rw [stepRead, hspan, hstart]
  have hread := read_mod g.rawCap c.rows (pos + 1 - g.rawWindow) 0 (min g.rawWindow (pos + 1))
  rw [Nat.add_zero, Nat.add_zero] at hread
  rw [hread]
  exact h.read (by omega) (by omega)

theorem encodeToken_spec (hg : g.Valid) {c : RawCache} {pos : Nat} (h : c.LiveAt g pos) :
    (encodeToken g c pos).1.LiveAt g (pos + 1) ∧ (encodeToken g c pos).1.prompt = c.prompt ∧ (encodeToken g c pos).2.Covered g := by
  have hlive : (c.store g pos 1).LiveAt g (pos + 1) := Live.putAll (n := 1) h
  exact ⟨hlive, rfl, stepRead_window hg hlive⟩

theorem encodeTokens_spec (hg : g.Valid) : ∀ {n pos : Nat} {c : RawCache}, c.LiveAt g pos →
    (encodeTokens g c (List.range' pos n)).1.LiveAt g (pos + n) ∧ (encodeTokens g c (List.range' pos n)).1.prompt = c.prompt ∧
      ∀ q ∈ (encodeTokens g c (List.range' pos n)).2, q.Covered g
  | 0, _, _, h => ⟨h, rfl, fun _ hq => absurd hq List.not_mem_nil⟩
  | n + 1, pos, c, h => by
    obtain ⟨hlive, hprompt, hcovered⟩ := encodeToken_spec hg h
    obtain ⟨ihlive, ihprompt, ihcovered⟩ := encodeTokens_spec hg (n := n) hlive
    rw [show pos + (n + 1) = pos + 1 + n by omega]
    exact ⟨ihlive, ihprompt.trans hprompt, List.forall_mem_cons.mpr ⟨hcovered, ihcovered⟩⟩

/-! ## One batch -/

/-- The batch kernel reads the rows of the window that its span has. -/
theorem batchRead_eq (hg : g.Valid) {c : RawCache} {pos0 n pos : Nat} (h : c.LiveAt g (pos0 + n)) (hn : 0 < n)
    (hpos : pos < pos0 + n) :
    let lo := max (pos0 + n - rawSpanForBatch g pos0 n) (pos + 1 - g.rawWindow)
    batchRead g c pos0 n pos = (List.range' lo (pos + 1 - lo)).map fun p => some ⟨c.prompt, p⟩ := by
  obtain ⟨hwpos, hwle, hsmall, -⟩ := hg
  dsimp only
  have hspan : 0 < rawSpanForBatch g pos0 n ∧ rawSpanForBatch g pos0 n ≤ g.rawCap := by
    rw [rawSpanForBatch, if_neg (by omega)]
    dsimp only
    split <;> split <;> omega
  rw [batchRead, rawStartForSpan, if_neg (by omega), show pos0 + n - 1 + 1 = pos0 + n by omega]
  generalize rawSpanForBatch g pos0 n = nRaw at *
  rw [read_mod, Nat.add_sub_cancel' (Nat.le_max_left _ _)]
  generalize hlo : max (pos0 + n - nRaw) (pos + 1 - g.rawWindow) = lo
  rw [Nat.min_eq_left (by omega)]
  rcases Nat.le_total lo (pos + 1) with hle | hgt
  · exact h.read (by omega) (by omega)
  · rw [Nat.sub_eq_zero_of_le hgt]
    rfl

theorem first_le_iff (hg : g.Valid) (pos0 : Nat) {n : Nat} (hn : 0 < n) (hcap : n ≤ g.rawCap) :
    pos0 + n - rawSpanForBatch g pos0 n ≤ pos0 + 1 - g.rawWindow ↔ n + min (g.rawWindow - 1) pos0 ≤ g.rawCap := by
  obtain ⟨hwpos, hwle, -, -⟩ := hg
  have hw : g.rawWindow ≠ 0 := by omega
  rw [rawSpanForBatch, if_neg (by omega)]
  dsimp only
  rw [if_pos hw]
  split <;> omega

/-- A batch covers all its queries exactly when it fits: the first query has the longest way back. -/
theorem batch_covered_iff (hg : g.Valid) {c : RawCache} {pos0 n : Nat} (h : c.LiveAt g pos0) (hn : 0 < n) :
    (encodeBatch g c pos0 n).1.LiveAt g (pos0 + n) ∧ (encodeBatch g c pos0 n).1.prompt = c.prompt ∧
      ((∀ q ∈ (encodeBatch g c pos0 n).2, q.Covered g) ↔ ChunkFits g (pos0, n)) := by
  have hlive : (c.store g pos0 n).LiveAt g (pos0 + n) := h.putAll
  rw [encodeBatch]
  by_cases hzero : pos0 = 0
  · rw [if_pos hzero]
    refine ⟨hlive, rfl, iff_of_true (fun q hq => ?_) (.inl hzero)⟩
    obtain ⟨pos, -, rfl⟩ := List.mem_map.mp hq
    rfl
  rw [if_neg hzero]
  by_cases hcap : n ≤ g.rawCap
  · rw [if_pos hcap]
    refine ⟨hlive, rfl, ?_⟩
    have hread := fun {pos : Nat} (hpos : pos < pos0 + n) => batchRead_eq hg hlive hn hpos
    have hfirst := first_le_iff hg pos0 hn hcap
    have hfits : ChunkFits g (pos0, n) ↔ n + min (g.rawWindow - 1) pos0 ≤ g.rawCap := by
      rw [ChunkFits]
      dsimp only
      omega
    rw [hfits, ← hfirst]
    constructor
    · intro hcovered
      have hq := hcovered _ (List.mem_map_of_mem (List.mem_range'_1.mpr ⟨Nat.le_refl pos0, by omega⟩))
      rw [Query.Covered, hread (by omega)] at hq
      have hlen := congrArg List.length hq
      simp only [List.length_map, List.length_range'] at hlen
      have := hg.window_pos
      omega
    · intro hle q hq
      obtain ⟨pos, hpos, rfl⟩ := List.mem_map.mp hq
      obtain ⟨hpos0, hpos⟩ := List.mem_range'_1.mp hpos
      rw [Query.Covered, hread hpos, Nat.max_eq_right (by omega)]
      dsimp only
      congr 2
      omega
  · rw [if_neg hcap]
    obtain ⟨htlive, htprompt, hcovered⟩ := encodeTokens_spec hg (n := n) h
    exact ⟨htlive, htprompt, iff_of_true hcovered (.inr (.inl (by omega)))⟩

/-! ## Ranges and runs -/

theorem chunkLen_spec (hg : g.Valid) (start pos0 : Nat) {remaining : Nat} (hr : 0 < remaining) :
    0 < chunkLen g start pos0 remaining ∧ chunkLen g start pos0 remaining ≤ remaining ∧
      chunkLen g start pos0 remaining ≤ g.prefillCap := by
  obtain ⟨hwpos, hwle, -, hp⟩ := hg
  have hmod := Nat.mod_lt pos0 hp
  rw [chunkLen]
  split <;> split <;> omega

/-- The chunks of a range, one after another, cover its queries exactly when each of them fits. -/
theorem encodeChunks_spec (hg : g.Valid) (start : Nat) : ∀ (fuel : Nat) {pos0 remaining : Nat} {c : RawCache}, remaining ≤ fuel →
    c.LiveAt g pos0 →
    (encodeChunks g c (chunksFrom g start fuel pos0 remaining)).1.LiveAt g (pos0 + remaining) ∧
      (encodeChunks g c (chunksFrom g start fuel pos0 remaining)).1.prompt = c.prompt ∧
      ((∀ q ∈ (encodeChunks g c (chunksFrom g start fuel pos0 remaining)).2, q.Covered g) ↔
        ∀ chunk ∈ chunksFrom g start fuel pos0 remaining, ChunkFits g chunk)
  | 0, pos0, remaining, c, hfuel, h => by
    obtain rfl := Nat.le_zero.mp hfuel
    exact ⟨h, rfl, iff_of_true (fun _ hq => absurd hq List.not_mem_nil) fun _ hc => absurd hc List.not_mem_nil⟩
  | fuel + 1, pos0, remaining, c, hfuel, h => by
    rw [chunksFrom]
    by_cases hr : remaining = 0
    · rw [if_pos hr, hr]
      exact ⟨h, rfl, iff_of_true (fun _ hq => absurd hq List.not_mem_nil) fun _ hc => absurd hc List.not_mem_nil⟩
    · rw [if_neg hr]
      obtain ⟨hpos, hle, -⟩ := chunkLen_spec hg start pos0 (Nat.pos_of_ne_zero hr)
      generalize chunkLen g start pos0 remaining = n at *
      obtain ⟨hlive, hprompt, hbatch⟩ := batch_covered_iff hg h hpos
      obtain ⟨ihlive, ihprompt, ih⟩ := encodeChunks_spec hg start fuel (show remaining - n ≤ fuel by omega) hlive
      rw [show pos0 + remaining = pos0 + n + (remaining - n) by omega]
      refine ⟨ihlive, ihprompt.trans hprompt, ?_⟩
      rw [List.forall_mem_cons, ← hbatch, ← ih, ← List.forall_mem_append]
      rfl

theorem prefillChunkedRange_spec (hg : g.Valid) {c : RawCache} {start n : Nat} (h : c.LiveAt g start) :
    (prefillChunkedRange g c start n).1.LiveAt g (start + n) ∧
      ((∀ q ∈ (prefillChunkedRange g c start n).2, q.Covered g) ↔ ∀ chunk ∈ rangeChunks g start n, ChunkFits g chunk) := by
  obtain ⟨hlive, -, hcovered⟩ := encodeChunks_spec hg start n (Nat.le_refl n) h
  exact ⟨hlive, hcovered⟩

/-- Each operation leaves the last rows in the ring, and covers its queries exactly when its chunks fit. -/
theorem step_spec (hg : g.Valid) {s : RingState} (h : s.cache.LiveAt g s.len) (op : Op) :
    (step g s op).1.cache.LiveAt g (step g s op).1.len ∧ (step g s op).1.len = lenAfter s.len op ∧
      ((∀ q ∈ (step g s op).2, q.Covered g) ↔ OpFits g s.len op) := by
  cases op with
  | restart n =>
    obtain ⟨hlive, hcovered⟩ := prefillChunkedRange_spec hg (c := { s.cache with prompt := s.cache.prompt + 1 }) (n := n)
      (live_zero _ _ _)
    rw [Nat.zero_add] at hlive
    exact ⟨hlive, rfl, hcovered⟩
  | extend n =>
    obtain ⟨hlive, hcovered⟩ := prefillChunkedRange_spec hg (n := n) h
    exact ⟨hlive, rfl, hcovered⟩
  | decode =>
    obtain ⟨hlive, -, hcovered⟩ := encodeToken_spec hg h
    exact ⟨hlive, rfl, iff_of_true (fun q hq => (List.mem_singleton.mp hq) ▸ hcovered) trivial⟩

theorem run_covered_iff (hg : g.Valid) : ∀ (ops : List Op) {s : RingState}, s.cache.LiveAt g s.len →
    ((∀ q ∈ run g s ops, q.Covered g) ↔ RunFits g s.len ops)
  | [], _, _ => iff_of_true (fun _ hq => absurd hq List.not_mem_nil) trivial
  | op :: ops, s, h => by
    obtain ⟨hlive, hlen, hcovered⟩ := step_spec hg h op
    have ih := run_covered_iff hg ops hlive
    rw [run, RunFits, List.forall_mem_append, hcovered, ih, hlen]

/-! ## Which sessions cover every run -/

/-- Every chunk from an aligned position on fits in the ring with the window before it, as long as the
    context lasts. -/
def SessionFits (g : GpuGraph) (ctxSize : Nat) : Prop :=
  g.prefillCap ≤ g.rawCap ∧ ∀ k, 0 < k → k * g.prefillCap < ctxSize →
    min g.prefillCap (ctxSize - k * g.prefillCap) + min (g.rawWindow - 1) (k * g.prefillCap) ≤ g.rawCap

theorem rawWindowFor_eq {ctxSize : Nat} (h : 0 < ctxSize) : rawWindowFor ctxSize = min nSwa ctxSize := by
  rw [rawWindowFor]
  exact if_neg (by rw [nSwa]; omega)

theorem ite_pos (n : Nat) : 0 < if n = 0 then 1 else n := by
  split <;> omega

theorem prefillCapForPrompt_spec (env : RingEnv) (pro : Bool) {promptLen : Nat} (h : 0 < promptLen) (requested : Nat) :
    0 < prefillCapForPrompt env pro promptLen requested ∧ prefillCapForPrompt env pro promptLen requested ≤ promptLen := by
  rw [prefillCapForPrompt, if_neg (by omega)]
  exact ⟨Nat.lt_min.mpr ⟨ite_pos _, h⟩, Nat.min_le_right _ _⟩

/-- The ring of a session is at least the window, and at most the context. -/
theorem graph_spec (args : SessionArgs) : args.graph.Valid ∧ args.graph.rawCap ≤ args.ctxSize ∧
    args.graph.prefillCap ≤ args.ctxSize ∧ args.graph.rawWindow = min nSwa args.ctxSize := by
  have hctx := args.ctxSize_pos
  obtain ⟨hpos, hle⟩ := prefillCapForPrompt_spec args.env args.pro hctx args.prefillChunk
  rw [SessionArgs.graph, allocRawCap]
  dsimp only
  generalize prefillCapForPrompt args.env args.pro args.ctxSize args.prefillChunk = prefillCap at *
  generalize rawCapForContext args.env args.ctxSize prefillCap = rawCap
  rw [if_neg (Nat.ne_of_gt hpos), if_neg (Nat.ne_of_gt hctx), rawWindowFor_eq hctx, nSwa]
  generalize (if rawCap = 0 then 1 else rawCap) = rawCap
  rw [if_neg (by omega)]
  exact ⟨⟨by dsimp only; omega, by dsimp only; omega, by dsimp only; omega, hpos⟩, Nat.min_le_right _ _, hle, rfl⟩

theorem chunks_aligned (hg : g.Valid) {start : Nat} : ∀ {fuel pos0 remaining : Nat},
    (start = 0 → remaining = 0 ∨ pos0 % g.prefillCap = 0) →
    ∀ chunk ∈ chunksFrom g start fuel pos0 remaining,
      chunk.1 + chunk.2 ≤ pos0 + remaining ∧ chunk.2 ≤ g.prefillCap - chunk.1 % g.prefillCap
  | 0, _, _, _ => fun _ hc => absurd hc List.not_mem_nil
  | fuel + 1, pos0, remaining, haligned => by
    rw [chunksFrom]
    by_cases hr : remaining = 0
    · rw [if_pos hr]
      exact fun _ hc => absurd hc List.not_mem_nil
    · rw [if_neg hr]
      obtain ⟨hpos, hle, hcap⟩ := chunkLen_spec hg start pos0 (Nat.pos_of_ne_zero hr)
      have hmod := Nat.mod_lt pos0 hg.prefill_pos
      have hboundary : chunkLen g start pos0 remaining ≤ g.prefillCap - pos0 % g.prefillCap := by
        by_cases hzero : start = 0
        · have := (haligned hzero).resolve_left hr
          omega
        · rw [chunkLen]
          split <;> split <;> omega
      have hnext : start = 0 → remaining - chunkLen g start pos0 remaining = 0 ∨
          (pos0 + chunkLen g start pos0 remaining) % g.prefillCap = 0 := by
        intro hzero
        have hmod0 := (haligned hzero).resolve_left hr
        rcases Nat.lt_or_ge g.prefillCap remaining with hlt | hge
        · right
          have hlen : chunkLen g start pos0 remaining = g.prefillCap := by
            rw [chunkLen, if_neg (by omega), if_neg (by omega)]
            omega
          rw [hlen, Nat.add_mod_right, hmod0]
        · left
          have hlen : chunkLen g start pos0 remaining = remaining := by
            rw [chunkLen, if_neg (by omega), if_neg (by omega)]
            omega
          omega
      refine List.forall_mem_cons.mpr ⟨⟨by dsimp only; omega, hboundary⟩, fun chunk hc => ?_⟩
      have ih := chunks_aligned hg hnext chunk hc
      exact ⟨by omega, ih.2⟩

/-- A chunk inside an aligned one is no worse than the aligned one. -/
theorem chunkFits_of_session (hg : g.Valid) {ctxSize p n : Nat} (hfits : SessionFits g ctxSize) (hctx : p + n ≤ ctxSize)
    (hn : n ≤ g.prefillCap - p % g.prefillCap) : ChunkFits g (p, n) := by
  obtain ⟨hcap, haligned⟩ := hfits
  have hw := hg.window_le
  have hmod := Nat.mod_lt p hg.prefill_pos
  have hdiv := Nat.div_add_mod' p g.prefillCap
  have hk := haligned (p / g.prefillCap)
  refine .inr (.inr ?_)
  dsimp only
  rcases Nat.eq_zero_or_pos (p / g.prefillCap) with hzero | hpos
  · rw [hzero, Nat.zero_mul] at hdiv
    omega
  · generalize p / g.prefillCap * g.prefillCap = a at *
    rcases Nat.lt_or_ge a ctxSize with hlt | hge
    · have := hk hpos hlt
      omega
    · have := hg.window_pos
      omega

theorem runFits_of_session (hg : g.Valid) {ctxSize : Nat} (hfits : SessionFits g ctxSize) : ∀ (ops : List Op) {len : Nat},
    Within ctxSize len ops → RunFits g len ops
  | [], _, _ => trivial
  | op :: ops, len, ⟨hle, hops⟩ => by
    refine ⟨?_, runFits_of_session hg hfits ops hops⟩
    have hrange : ∀ {start n : Nat}, start + n ≤ ctxSize → ∀ chunk ∈ rangeChunks g start n, ChunkFits g chunk := by
      intro start n hctx chunk hc
      obtain ⟨hend, hlen⟩ := chunks_aligned hg (fun hzero => .inr (by rw [hzero, Nat.zero_mod])) chunk hc
      exact chunkFits_of_session hg hfits (Nat.le_trans hend hctx) hlen
    cases op with
    | restart n => exact hrange (by rw [Nat.zero_add]; exact hle)
    | extend n => exact hrange hle
    | decode => trivial

/-- Some tokens of a prompt, then a range that is one chunk. -/
theorem chunk_of_range {start n : Nat} (hn : 0 < n) (hlen : chunkLen g start start n = n) :
    rangeChunks g start n = [(start, n)] := by
  obtain ⟨m, rfl⟩ : ∃ m, n = m + 1 := ⟨n - 1, by omega⟩
  rw [rangeChunks, chunksFrom, if_neg (Nat.succ_ne_zero m), hlen]
  dsimp only
  rw [Nat.sub_self]
  cases m with
  | zero => rfl
  | succ m => rw [chunksFrom, if_pos rfl]

theorem session_of_runFits (hg : g.Valid) {ctxSize : Nat} (hcap : g.prefillCap ≤ ctxSize) (hwindow : g.rawWindow = min nSwa ctxSize)
    (hruns : ∀ ops, Within ctxSize 0 ops → RunFits g 0 ops) : SessionFits g ctxSize := by
  obtain ⟨hwpos, hwle, -, hp⟩ := hg
  have hle : g.prefillCap ≤ g.rawCap := by
    by_contra hgt
    rw [nSwa] at hwindow
    have hmod : 1 % g.prefillCap = 1 := Nat.mod_eq_of_lt (by omega)
    have hchunk : (if (1 : Nat) ≠ 0 ∧ g.prefillCap > g.rawCap then g.rawCap else g.prefillCap) = g.rawCap :=
      if_pos ⟨Nat.one_ne_zero, by omega⟩
    have hlen : chunkLen g 1 1 g.rawCap = g.rawCap := by
      rw [chunkLen, hchunk, hmod]
      split <;> omega
    have hone := chunk_of_range (by omega) hlen
    have hfit : ChunkFits g (1, g.rawCap) := by
      have hrun := hruns [.restart 1, .extend g.rawCap] ⟨by rw [lenAfter]; omega, by rw [lenAfter, lenAfter]; omega, trivial⟩
      have hop : OpFits g 1 (.extend g.rawCap) := hrun.2.1
      rw [OpFits, hone] at hop
      exact hop _ (List.mem_singleton_self _)
    rw [ChunkFits] at hfit
    dsimp only at hfit
    omega
  refine ⟨hle, fun k hk hctx => ?_⟩
  have hk0 : 0 < k * g.prefillCap := Nat.mul_pos hk hp
  have hmod : k * g.prefillCap % g.prefillCap = 0 := Nat.mul_mod_left _ _
  generalize k * g.prefillCap = start at *
  generalize hn : min g.prefillCap (ctxSize - start) = n
  have hlen : chunkLen g start start n = n := by
    rw [chunkLen, if_neg (by omega), if_neg (by omega)]
    omega
  have hone := chunk_of_range (by omega) hlen
  have hfit : ChunkFits g (start, n) := by
    have hrun := hruns [.restart start, .extend n] ⟨by rw [lenAfter]; omega, by rw [lenAfter, lenAfter]; omega, trivial⟩
    have hop : OpFits g start (.extend n) := hrun.2.1
    rw [OpFits, hone] at hop
    exact hop _ (List.mem_singleton_self _)
  rw [ChunkFits] at hfit
  dsimp only at hfit
  omega

theorem le_alignUp {value : Nat} (h : value < 2 ^ 31) : value ≤ alignUp value 256 := by
  rw [alignUp]
  split
  · exact Nat.le_refl _
  · rw [Nat.mod_eq_of_lt (by omega)]
    omega

/-- Without `DS4_METAL_GRAPH_RAW_CAP`, chunks of up to 8065 tokens always fit. -/
theorem sessionFits_of_default (args : SessionArgs) (hcap : args.env.rawCap = none) (hchunk : args.graph.prefillCap + 127 ≤ 8192) :
    SessionFits args.graph args.ctxSize := by
  have hctx := args.ctxSize_pos
  have hint := args.ctxSize_int
  obtain ⟨hpos, hle⟩ := prefillCapForPrompt_spec args.env args.pro hctx args.prefillChunk
  rw [SessionArgs.graph, allocRawCap, rawCapForContext, hcap] at *
  dsimp only at *
  generalize prefillCapForPrompt args.env args.pro args.ctxSize args.prefillChunk = prefillCap at *
  rw [if_neg (Nat.ne_of_gt hpos)] at *
  rw [if_neg (Nat.ne_of_gt hctx), rawWindowFor_eq hctx, nSwa]
  have halign := le_alignUp (show min (min 128 args.ctxSize + prefillCap) args.ctxSize < 2 ^ 31 by omega)
  rw [if_neg (Nat.ne_of_gt (show 0 < min (min 128 args.ctxSize + prefillCap) args.ctxSize by omega))]
  generalize alignUp (min (min 128 args.ctxSize + prefillCap) args.ctxSize) 256 = wanted at *
  rw [if_neg (Nat.ne_of_gt (show 0 < max (min wanted 8192) (min 128 args.ctxSize) by omega)),
    if_neg (Nat.ne_of_gt (show 0 < min (max (max (min wanted 8192) (min 128 args.ctxSize)) (min 128 args.ctxSize)) args.ctxSize by
      omega))]
  refine ⟨by dsimp only; omega, fun k _ hk => ?_⟩
  dsimp only at hk ⊢
  generalize k * prefillCap = start at *
  omega

/-- Every run of a session covers every query exactly when the aligned chunks fit; and a single run
    exactly when its own chunks do. -/
theorem ring_covers_iff (args : SessionArgs) :
    ((∀ ops, Within args.ctxSize 0 ops → ∀ q ∈ run args.graph .init ops, q.Covered args.graph) ↔
      SessionFits args.graph args.ctxSize) ∧
    ∀ ops, (∀ q ∈ run args.graph .init ops, q.Covered args.graph) ↔ RunFits args.graph 0 ops := by
  obtain ⟨hg, -, hprefill, hwindow⟩ := graph_spec args
  have hrun : ∀ ops, (∀ q ∈ run args.graph .init ops, q.Covered args.graph) ↔ RunFits args.graph 0 ops :=
    fun ops => run_covered_iff hg ops (live_zero _ _ _)
  refine ⟨⟨fun h => ?_, fun h ops hops => (hrun ops).mpr (runFits_of_session hg h ops hops)⟩, hrun⟩
  exact session_of_runFits hg hprefill hwindow fun ops hops => (hrun ops).mp (h ops hops)

/-- The larger model with its default chunks and a context of 16384. -/
def proSession : SessionArgs := ⟨⟨none, none⟩, true, 16384, 0, by decide, by decide⟩

theorem ring_covers_fails : ¬∀ ops, Within 16384 0 ops → ∀ q ∈ run proSession.graph .init ops, q.Covered proSession.graph := by
  intro h
  obtain ⟨hg, -, hprefill, hwindow⟩ := graph_spec proSession
  have hruns : ∀ ops, Within 16384 0 ops → RunFits proSession.graph 0 ops :=
    fun ops hops => (run_covered_iff hg ops (s := .init) (live_zero _ _ _)).mp (h ops hops)
  have hgraph : proSession.graph = ⟨8192, 128, 8192⟩ := by
    simp [proSession, SessionArgs.graph, prefillCapForPrompt, rawCapForContext, allocRawCap, rawWindowFor, nSwa, alignUp]
  have hchunk := (session_of_runFits hg hprefill hwindow hruns).2 1 Nat.one_pos
  rw [hgraph] at hchunk
  have hfits : 8192 + 127 ≤ 8192 := hchunk (by decide)
  omega

end Ds4.Engine
