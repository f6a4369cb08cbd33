import Mathlib.Data.List.Sort
import Ds4.Bytes

/- The coordinator's registry of workers and its route planning in
   ds4_distributed.c: the checks a HELLO passes, the registration, the
   backtracking search over the sorted workers, and what a plan's path is.

   What is proved:
     1. `registered_ok` — a registered worker has passed the checks.
     2. `searchWorkers_decides` — the search returns a path exactly when there is one,
        and leaves the path as it was when there is none.
     3. `searchWorkers_fuel`, `searchWorkers_peak` — with a step for every layer
        the bound on the steps is never seen, and no more entries of the path are
        written than there are workers.
     4. `chain_iff` — a path of the search is a row of ranges that covers the layers
        behind the local ones, each once and in order.

   Correspondence (C ↔ Lean):
     the checks of `dist_coordinator_client_main`  ↔ `helloError`
     `dist_coordinator_add_worker`                 ↔ `addWorker`
     `dist_worker_route_cmp`, `qsort`              ↔ `routeCmp`, `QSort`
     `dist_worker_route_candidate_ok`              ↔ `candidateOk`
     `dist_route_search_workers`                   ↔ `searchWorkers`, its loop `scanWorkers`
   Log lines, the connections and the lock are left out; allocation succeeds. -/
namespace Ds4.Dist.Route
open Ds4 Bytes

/-- `NI_MAXHOST`. -/
def niMaxHost : Nat := 1025
/-- `DS4_MAX_LAYER`. -/
def maxLayer : Nat := 61

/-- A peer's name as `getnameinfo` gives it, or `unknown`: a string that is not empty, in a buffer of `NI_MAXHOST`. -/
structure Host where
  bytes : Bytes
  ne_nil : bytes ≠ []
  fits : bytes.length < niMaxHost
  no_nul : (0 : UInt8) ∉ bytes
  deriving DecidableEq

/-- What a worker says of itself. -/
structure Hello where
  modelId : Nat
  modelName : String
  quantBits : Nat
  layerStart : Nat
  layerEnd : Nat
  hasOutput : Nat
  hasHidden : Nat
  ctxSize : Nat
  nLayers : Nat
  listenPort : Nat

/-- A registered worker; its flags are 0 or 1 by the checks. -/
structure Worker where
  peerHost : Host
  modelId : Nat
  layerStart : Nat
  layerEnd : Nat
  hasOutput : Bool
  hasHidden : Bool
  listenPort : Nat
  deriving DecidableEq

structure Coordinator where
  modelId : Nat
  modelName : String
  nLayers : Nat
  localStart : Nat
  localEnd : Nat
  ctxSize : Nat
  localHasOutput : Bool
  localCanOutputHead : Bool
  generation : Nat
  workers : List Worker

/-! ## Registration -/

/-- Why a worker is turned away, if it is. -/
def helloError (st : Coordinator) (h : Hello) : Option String :=
  if h.modelId ≠ st.modelId then
    some ("model id mismatch: worker=" ++ toString h.modelId ++ " coordinator=" ++ toString st.modelId)
  else if h.modelName ≠ st.modelName then
    some ("model family mismatch: worker=" ++ h.modelName ++ " coordinator=" ++ st.modelName)
  else if h.nLayers ≠ st.nLayers then
    some ("layer count mismatch: worker=" ++ toString h.nLayers ++ " coordinator=" ++ toString st.nLayers)
  else if h.quantBits ≠ 2 ∧ h.quantBits ≠ 4 then some ("unsupported worker quant profile Q" ++ toString h.quantBits)
  else if 1 < h.hasOutput then some ("invalid worker output-head flag " ++ toString h.hasOutput)
  else if 1 < h.hasHidden then some ("invalid worker hidden-state flag " ++ toString h.hasHidden)
  else if h.nLayers ≤ h.layerStart ∨ h.nLayers ≤ h.layerEnd ∨ h.layerEnd < h.layerStart then
    some ("invalid worker layer range " ++ toString h.layerStart ++ ":" ++ toString h.layerEnd ++ " for " ++
      toString h.nLayers ++ " layers")
  else if h.hasOutput ≠ 0 ∧ h.layerEnd + 1 ≠ h.nLayers then
    some ("worker output head requires final layer: range=" ++ toString h.layerStart ++ ":" ++ toString h.layerEnd ++
      " layers=" ++ toString h.nLayers)
  else if st.ctxSize ≠ 0 ∧ h.ctxSize < st.ctxSize then
    some ("worker context too small: worker=" ++ toString h.ctxSize ++ " coordinator=" ++ toString st.ctxSize)
  else if h.listenPort = 0 ∨ 65535 < h.listenPort then some ("invalid worker data listen port " ++ toString h.listenPort)
  else none

def newWorker (host : Host) (h : Hello) : Worker :=
  { peerHost := host, modelId := h.modelId, layerStart := h.layerStart, layerEnd := h.layerEnd
    hasOutput := h.hasOutput != 0, hasHidden := h.hasHidden != 0, listenPort := h.listenPort }

/-- An older entry of the same worker. -/
def isStale (new old : Worker) : Bool :=
  old.peerHost.bytes == new.peerHost.bytes && old.modelId == new.modelId && old.layerStart == new.layerStart &&
    old.layerEnd == new.layerEnd && old.hasOutput == new.hasOutput

/-- The new entry comes first, and stale ones go. -/
def addWorker (st : Coordinator) (w : Worker) : Coordinator :=
  { st with workers := w :: st.workers.filter fun old => !isStale w old, generation := st.generation + 1 }

/-- The part of a connection that registers its worker. -/
def clientMain (st : Coordinator) (peer : Host × Hello) : Coordinator :=
  match helloError st peer.2 with
  | some _ => st
  | none => addWorker st (newWorker peer.1 peer.2)

def registerAll (st : Coordinator) (peers : List (Host × Hello)) : Coordinator := peers.foldl clientMain st

/-- What the checks leave of a worker. -/
structure Worker.Ok (n : Nat) (w : Worker) : Prop where
  start_le : w.layerStart ≤ w.layerEnd
  end_lt : w.layerEnd < n
  output : w.hasOutput = true → w.layerEnd + 1 = n
  port_pos : 0 < w.listenPort
  port_le : w.listenPort ≤ 65535

theorem passed {c : Prop} [Decidable c] {e : String} {rest : Option String} (h : (if c then some e else rest) = none) :
    ¬c ∧ rest = none := by
  by_cases hc : c
  · rw [if_pos hc] at h
    exact nomatch h
  · rw [if_neg hc] at h
    exact ⟨hc, h⟩

theorem newWorker_ok {st : Coordinator} (host : Host) {h : Hello} (hh : helloError st h = none) :
    (newWorker host h).Ok st.nLayers := by
  rw [helloError] at hh
  obtain ⟨-, hh⟩ := passed hh
  obtain ⟨-, hh⟩ := passed hh
  obtain ⟨h3, hh⟩ := passed hh
  obtain ⟨-, hh⟩ := passed hh
  obtain ⟨-, hh⟩ := passed hh
  obtain ⟨-, hh⟩ := passed hh
  obtain ⟨h7, hh⟩ := passed hh
  obtain ⟨h8, hh⟩ := passed hh
  obtain ⟨-, hh⟩ := passed hh
  obtain ⟨h10, -⟩ := passed hh
  simp only [not_or, not_lt, not_le, not_and, not_not] at h3 h7 h8 h10
  refine ⟨h7.2.2, ?_, fun ho => ?_, Nat.pos_of_ne_zero h10.1, h10.2⟩
  · rw [← h3]
    exact h7.2.1
  · rw [← h3]
    exact h8 (by simpa [newWorker] using ho)

section
variable {st : Coordinator}

theorem clientMain_frame (st : Coordinator) (peer : Host × Hello) : (clientMain st peer).nLayers = st.nLayers ∧
    (clientMain st peer).localStart = st.localStart ∧ (clientMain st peer).localEnd = st.localEnd := by
  rw [clientMain]
  cases helloError st peer.2 <;> exact ⟨rfl, rfl, rfl⟩

theorem clientMain_ok (peer : Host × Hello) (h : ∀ w ∈ st.workers, w.Ok st.nLayers) :
    ∀ w ∈ (clientMain st peer).workers, w.Ok st.nLayers := by
  rw [clientMain]
  cases hh : helloError st peer.2 with
  | some e => exact h
  | none =>
    intro w hw
    rcases List.mem_cons.mp hw with rfl | hw
    · exact newWorker_ok peer.1 hh
    · exact h w (List.mem_filter.mp hw).1

/-- Registration in any order leaves workers that have passed the checks. -/
theorem registered_ok (peers : List (Host × Hello)) (h : ∀ w ∈ st.workers, w.Ok st.nLayers) :
    (registerAll st peers).nLayers = st.nLayers ∧ (registerAll st peers).localStart = st.localStart ∧
    (registerAll st peers).localEnd = st.localEnd ∧ ∀ w ∈ (registerAll st peers).workers, w.Ok st.nLayers := by
  induction peers generalizing st with
  | nil => exact ⟨rfl, rfl, rfl, h⟩
  | cons peer peers ih =>
    obtain ⟨hn, hs, he⟩ := clientMain_frame st peer
    have h' := clientMain_ok peer h
    rw [← hn] at h'
    obtain ⟨hn', hs', he', hok⟩ := ih h'
    exact ⟨hn'.trans hn, hs'.trans hs, he'.trans he, fun w hw => hn ▸ hok w hw⟩

end

/-! ## The order of the workers -/

def routeCmp (a b : Worker) : Int :=
  if a.layerStart < b.layerStart then -1
  else if a.layerStart > b.layerStart then 1
  else if a.hasOutput ≠ b.hasOutput then if a.hasOutput then -1 else 1
  else if a.layerEnd > b.layerEnd then -1
  else if a.layerEnd < b.layerEnd then 1
  else 0

/-- `qsort` with `routeCmp`: some order of the workers that the comparison allows. -/
structure QSort where
  sort : List Worker → List Worker
  perm : ∀ l, (sort l).Perm l
  sorted : ∀ l, (sort l).Pairwise fun a b => routeCmp a b ≤ 0

theorem routeCmp_le_iff (a b : Worker) : routeCmp a b ≤ 0 ↔
    a.layerStart < b.layerStart ∨ a.layerStart = b.layerStart ∧
      (a.hasOutput = true ∧ b.hasOutput = false ∨ a.hasOutput = b.hasOutput ∧ b.layerEnd ≤ a.layerEnd) := by
  rw [routeCmp]
  split_ifs with hlt hgt hout hfirst hlonger hshorter <;> grind

theorem start_le_of_cmp {a b : Worker} (h : routeCmp a b ≤ 0) : a.layerStart ≤ b.layerStart := by
  rcases (routeCmp_le_iff a b).mp h with h | ⟨h, -⟩
  · exact h.le
  · exact h.le

theorem routeCmp_trans (a b c : Worker) (hab : routeCmp a b ≤ 0) (hbc : routeCmp b c ≤ 0) : routeCmp a c ≤ 0 := by
  rw [routeCmp_le_iff] at hab hbc ⊢
  grind

theorem routeCmp_total (a b : Worker) : routeCmp a b ≤ 0 ∨ routeCmp b a ≤ 0 := by
  rw [routeCmp_le_iff, routeCmp_le_iff]
  cases ha : a.hasOutput <;> cases hb : b.hasOutput <;> simp <;> omega

instance : Std.Total fun a b => routeCmp a b ≤ 0 := ⟨routeCmp_total⟩

instance : IsTrans Worker fun a b => routeCmp a b ≤ 0 := ⟨routeCmp_trans⟩

/-- Insertion gives one such order. -/
def QSort.insertion : QSort where
  sort l := l.insertionSort fun a b => routeCmp a b ≤ 0
  perm l := l.perm_insertionSort _
  sorted l := l.pairwise_insertionSort _

/-! ## The search -/

def candidateOk (st : Coordinator) (w : Worker) (last : Nat) : Bool :=
  let needsHidden := decide (w.layerEnd < last) || !w.hasOutput
  !(needsHidden && !w.hasHidden) && !(decide (last ≤ w.layerEnd) && !w.hasOutput && !st.localCanOutputHead)

/-- What a search leaves: the path with its length, the layer it misses, and the most entries of
    the path that have been written. -/
structure Found where
  ok : Bool
  path : List Worker
  missing : Nat
  peak : Nat

/-- The loop over the workers, from one of them on. -/
def scanWorkers (st : Coordinator) (last next : Nat) (deeper : Nat → List Worker → Nat → Found) :
    List Worker → Bool → List Worker → Nat → Nat → Found
  | [], sawStart, path, missing, peak => ⟨false, path, if !sawStart && decide (missing < next) then next else missing, peak⟩
  | w :: ws, sawStart, path, missing, peak =>
    if w.layerStart < next then scanWorkers st last next deeper ws sawStart path missing peak
    else if next < w.layerStart then
      -- the workers are sorted by their first layer
      ⟨false, path, if !sawStart && decide (missing < next) then next else missing, peak⟩
    else if !candidateOk st w last then scanWorkers st last next deeper ws true path missing peak
    else
      let peak := max peak (path.length + 1)
      if last ≤ w.layerEnd then ⟨true, path ++ [w], missing, peak⟩
      else
        let child := deeper (w.layerEnd + 1) (path ++ [w]) (w.layerEnd + 1)
        let peak := max peak child.peak
        if child.ok then ⟨true, child.path, missing, peak⟩
        else scanWorkers st last next deeper ws true child.path.dropLast (max missing child.missing) peak

/-- The search from the layer `next` on; the first argument bounds how deep it may go. -/
def searchWorkers (st : Coordinator) (workers : List Worker) (last : Nat) : Nat → Nat → List Worker → Nat → Found
  | 0, _, path, missing => ⟨false, path, missing, path.length⟩
  | depth + 1, next, path, missing =>
    scanWorkers st last next (searchWorkers st workers last depth) workers false path missing path.length

/-- Workers one behind the other from the layer `next` to the last one. -/
inductive Chain (st : Coordinator) (last : Nat) : Nat → List Worker → Prop where
  | last {w : Worker} (hok : candidateOk st w last = true) (hend : last ≤ w.layerEnd) : Chain st last w.layerStart [w]
  | hop {w : Worker} {path : List Worker} (hok : candidateOk st w last = true) (hend : w.layerEnd < last)
      (rest : Chain st last (w.layerEnd + 1) path) : Chain st last w.layerStart (w :: path)

/-- The result is a path behind the one given, or the path given where none of `Good` is a chain. -/
def Decides (st : Coordinator) (workers : List Worker) (last next : Nat) (path : List Worker) (Good : List Worker → Prop)
    (r : Found) : Prop :=
  (r.ok = true ∧ ∃ q, r.path = path ++ q ∧ (∀ w ∈ q, w ∈ workers) ∧ Chain st last next q) ∨
  (r.ok = false ∧ r.path = path ∧ ∀ q, Good q → (∀ w ∈ q, w ∈ workers) → ¬Chain st last next q)

section
variable {st : Coordinator} {workers : List Worker} {last next : Nat}

theorem Decides.none {path : List Worker} {Good : List Worker → Prop} {missing peak : Nat}
    (h : ∀ q, Good q → ¬Chain st last next q) :
    Decides st workers last next path Good ⟨false, path, missing, peak⟩ :=
  Or.inr ⟨rfl, rfl, fun q hq _ => h q hq⟩

/-- A worker that starts no chain may be left out. -/
theorem Decides.skip {path : List Worker} {w : Worker} {ws : List Worker} {r : Found}
    (h : Decides st workers last next path (fun q => ∃ v ∈ q.head?, v ∈ ws) r)
    (hw : ∀ q, (∀ v ∈ w :: q, v ∈ workers) → ¬Chain st last next (w :: q)) :
    Decides st workers last next path (fun q => ∃ v ∈ q.head?, v ∈ w :: ws) r := by
  rcases h with h | ⟨hok, hpath, hnone⟩
  · exact Or.inl h
  · refine Or.inr ⟨hok, hpath, fun q hq hmem hchain => ?_⟩
    obtain ⟨v, hv, hvw⟩ := hq
    rcases List.mem_cons.mp hvw with rfl | hvw
    · cases q with
      | nil => simp at hv
      | cons x q =>
        obtain rfl := Option.some.inj hv
        exact hw q hmem hchain
    · exact hnone q ⟨v, hv, hvw⟩ hmem hchain

theorem chain_ne_nil {q : List Worker} (h : Chain st last next q) : q ≠ [] := by
  cases h <;> exact List.cons_ne_nil _ _

theorem chain_start {w : Worker} {q : List Worker} (h : Chain st last next (w :: q)) :
    w.layerStart = next ∧ candidateOk st w last = true := by
  cases h with
  | last hok hend => exact ⟨rfl, hok⟩
  | hop hok hend rest => exact ⟨rfl, hok⟩

/-- The loop decides whether a worker of its list starts a chain, if the search behind each worker decides. -/
theorem scanWorkers_decides {deeper : Nat → List Worker → Nat → Found}
    (hdeep : ∀ w ∈ workers, w.layerStart = next → w.layerEnd < last → ∀ path missing,
      Decides st workers last (w.layerEnd + 1) path (fun _ => True) (deeper (w.layerEnd + 1) path missing)) :
    ∀ (ws : List Worker), (∀ w ∈ ws, w ∈ workers) → ws.Pairwise (fun a b => a.layerStart ≤ b.layerStart) →
    ∀ sawStart path missing peak,
    Decides st workers last next path (fun q => ∃ v ∈ q.head?, v ∈ ws)
      (scanWorkers st last next deeper ws sawStart path missing peak) := by
  intro ws
  induction ws with
  | nil =>
    intro _ _ sawStart path missing peak
    exact Decides.none fun q ⟨v, _, hv⟩ => absurd hv List.not_mem_nil
  | cons w ws ih =>
    intro hmem hsort sawStart path missing peak
    have ih' := ih (fun v hv => hmem v (List.mem_cons_of_mem _ hv)) hsort.of_cons
    rw [scanWorkers]
    by_cases hlt : w.layerStart < next
    · rw [if_pos hlt]
      refine (ih' sawStart path missing peak).skip fun q _ hchain => ?_
      have := (chain_start hchain).1
      omega
    rw [if_neg hlt]
    by_cases hgt : next < w.layerStart
    · rw [if_pos hgt]
      refine Decides.none fun q ⟨v, hv, hvw⟩ hchain => ?_
      -- no worker behind this one starts as early as `next`
      have hle : w.layerStart ≤ v.layerStart := by
        rcases List.mem_cons.mp hvw with rfl | hvw
        · exact Nat.le_refl _
        · exact List.rel_of_pairwise_cons hsort hvw
      cases q with
      | nil => simp at hv
      | cons x q =>
        obtain rfl := Option.some.inj hv
        have := (chain_start hchain).1
        omega
    rw [if_neg hgt]
    have hstart : w.layerStart = next := by omega
    by_cases hok : candidateOk st w last = true
    · rw [if_neg (by simp [hok])]
      dsimp only
      by_cases hend : last ≤ w.layerEnd
      · rw [if_pos hend]
        refine Or.inl ⟨rfl, [w], rfl, fun v hv => ?_, ?_⟩
        · rw [List.mem_singleton.mp hv]
          exact hmem w List.mem_cons_self
        · rw [← hstart]
          exact Chain.last hok hend
      · rw [if_neg hend]
        rcases hdeep w (hmem w List.mem_cons_self) hstart (Nat.lt_of_not_le hend) (path ++ [w]) (w.layerEnd + 1) with
          ⟨hfound, q, hpath, hq, hchain⟩ | ⟨hfound, hpath, hnone⟩
        · rw [if_pos hfound]
          refine Or.inl ⟨rfl, w :: q, ?_, fun v hv => ?_, ?_⟩
          · rw [hpath, List.append_assoc]
            rfl
          · rcases List.mem_cons.mp hv with rfl | hv
            · exact hmem v List.mem_cons_self
            · exact hq v hv
          · rw [← hstart]
            exact Chain.hop hok (Nat.lt_of_not_le hend) hchain
        · rw [if_neg (by simp [hfound]), hpath, List.dropLast_concat]
          refine (ih' true path _ _).skip fun q hq hchain => ?_
          cases hchain with
          | last _ hend' => exact hend hend'
          | hop _ _ rest => exact hnone q trivial (fun v hv => hq v (List.mem_cons_of_mem _ hv)) rest
    · rw [if_pos (by simp [hok])]
      exact (ih' true path missing peak).skip fun q _ hchain => hok (chain_start hchain).2

/-- The search decides whether the workers have a chain from `next` on. -/
theorem searchWorkers_decides (hsort : workers.Pairwise fun a b => a.layerStart ≤ b.layerStart)
    (hle : ∀ w ∈ workers, w.layerStart ≤ w.layerEnd) (hlast : ∀ w ∈ workers, w.layerStart ≤ last) : ∀ (depth next : Nat),
    last + 1 ≤ next + depth → ∀ path missing,
    Decides st workers last next path (fun _ => True) (searchWorkers st workers last depth next path missing) := by
  intro depth
  induction depth with
  | zero =>
    intro next hdepth path missing
    refine Or.inr ⟨rfl, rfl, fun q _ hq hchain => ?_⟩
    cases q with
    | nil => exact absurd rfl (chain_ne_nil hchain)
    | cons w q =>
      have h1 := (chain_start hchain).1
      have h2 := hlast w (hq w List.mem_cons_self)
      omega
  | succ depth ih =>
    intro next hdepth path missing
    have hscan := @scanWorkers_decides st workers last next (searchWorkers st workers last depth)
      (fun w hw hstart hend path missing => ih (w.layerEnd + 1) (by have := hle w hw; omega) path missing) workers (fun w hw => hw) hsort
      false path missing path.length
    rw [searchWorkers]
    rcases hscan with h | ⟨hok, hpath, hnone⟩
    · exact Or.inl h
    · refine Or.inr ⟨hok, hpath, fun q _ hq hchain => ?_⟩
      cases q with
      | nil => exact absurd rfl (chain_ne_nil hchain)
      | cons w q => exact hnone (w :: q) ⟨w, rfl, hq w List.mem_cons_self⟩ hq hchain

/-! ## The search ends, inside its array -/

theorem scanWorkers_congr {deeper deeper' : Nat → List Worker → Nat → Found} : ∀ (ws : List Worker),
    (∀ w ∈ ws, w.layerStart = next → w.layerEnd < last → ∀ path missing,
      deeper (w.layerEnd + 1) path missing = deeper' (w.layerEnd + 1) path missing) → ∀ sawStart path missing peak,
    scanWorkers st last next deeper ws sawStart path missing peak = scanWorkers st last next deeper' ws sawStart path missing peak := by
  intro ws
  induction ws with
  | nil =>
    intro _ sawStart path missing peak
    rfl
  | cons w ws ih =>
    intro h sawStart path missing peak
    have ih' := ih fun v hv => h v (List.mem_cons_of_mem _ hv)
    simp only [scanWorkers, ih']
    by_cases hlt : w.layerStart < next
    · rw [if_pos hlt, if_pos hlt]
    by_cases hend : last ≤ w.layerEnd
    · simp only [if_pos hend]
    by_cases hgt : next < w.layerStart
    · rw [if_neg hlt, if_neg hlt, if_pos hgt, if_pos hgt]
    · rw [h w List.mem_cons_self (by omega) (Nat.lt_of_not_le hend)]

/-- A search with a step for each layer has as many as it can use. -/
theorem searchWorkers_fuel (hle : ∀ w ∈ workers, w.layerStart ≤ w.layerEnd) : ∀ (depth depth' next : Nat), next ≤ last + 1 →
    last + 2 ≤ next + depth → last + 2 ≤ next + depth' → ∀ path missing,
    searchWorkers st workers last depth next path missing = searchWorkers st workers last depth' next path missing := by
  intro depth
  induction depth with
  | zero =>
    intro depth' next hnext hdepth
    omega
  | succ depth ih =>
    intro depth' next hnext hdepth hdepth' path missing
    cases depth' with
    | zero => omega
    | succ depth' =>
      rw [searchWorkers, searchWorkers]
      refine scanWorkers_congr workers (fun w hw hstart hend path missing => ?_) false path missing path.length
      have := hle w hw
      exact ih depth' (w.layerEnd + 1) (by omega) (by omega) (by omega) path missing

/-- How many workers start at `next` or behind it. -/
def ahead (workers : List Worker) (next : Nat) : Nat := (workers.filter fun w => decide (next ≤ w.layerStart)).length

theorem ahead_lt {w : Worker} (hw : w ∈ workers) {next' : Nat} (hstart : w.layerStart = next) (hlt : next < next') :
    ahead workers next' + 1 ≤ ahead workers next := by
  have hsub : (workers.filter fun v => decide (next' ≤ v.layerStart)) =
      (workers.filter fun v => decide (next ≤ v.layerStart)).filter fun v => decide (next' ≤ v.layerStart) := by
    rw [List.filter_filter]
    refine List.filter_congr fun v _ => ?_
    by_cases hv : next' ≤ v.layerStart
    · simp [hv, show next ≤ v.layerStart by omega]
    · simp [hv]
  rw [ahead, ahead, hsub]
  apply Nat.succ_le_of_lt
  rw [List.length_filter_lt_length_iff_exists]
  exact ⟨w, List.mem_filter.mpr ⟨hw, by simp [hstart]⟩, by simp; omega⟩

/-- A search that fails leaves the path as it was, and none writes more entries than there are workers ahead. -/
def Within (workers : List Worker) (next : Nat) (path : List Worker) (peak : Nat) (r : Found) : Prop :=
  (r.ok = false → r.path = path) ∧ r.peak ≤ max peak (path.length + ahead workers next)

theorem scanWorkers_within {deeper : Nat → List Worker → Nat → Found}
    (hdeep : ∀ w ∈ workers, w.layerStart = next → w.layerEnd < last → ∀ path missing,
      Within workers (w.layerEnd + 1) path path.length (deeper (w.layerEnd + 1) path missing))
    (hle : ∀ w ∈ workers, w.layerStart ≤ w.layerEnd) : ∀ (ws : List Worker), (∀ w ∈ ws, w ∈ workers) →
    ∀ sawStart path missing peak,
    Within workers next path peak (scanWorkers st last next deeper ws sawStart path missing peak) := by
  intro ws
  induction ws with
  | nil =>
    intro _ sawStart path missing peak
    exact ⟨fun _ => rfl, Nat.le_max_left _ _⟩
  | cons w ws ih =>
    intro hmem sawStart path missing peak
    have ih' := ih fun v hv => hmem v (List.mem_cons_of_mem _ hv)
    have hw := hmem w List.mem_cons_self
    have hwle := hle w hw
    rw [scanWorkers]
    by_cases hlt : w.layerStart < next
    · rw [if_pos hlt]
      exact ih' sawStart path missing peak
    rw [if_neg hlt]
    by_cases hgt : next < w.layerStart
    · rw [if_pos hgt]
      exact ⟨fun _ => rfl, Nat.le_max_left _ _⟩
    rw [if_neg hgt]
    by_cases hok : (!candidateOk st w last) = true
    · rw [if_pos hok]
      exact ih' true path missing peak
    · rw [if_neg hok]
      have hstart : w.layerStart = next := by omega
      have hahead := ahead_lt hw hstart (show next < w.layerEnd + 1 by omega)
      dsimp only
      split_ifs with hend hfound
      · exact ⟨fun h => by simp at h, by dsimp only; omega⟩
      · obtain ⟨-, hpeak⟩ := hdeep w hw hstart (Nat.lt_of_not_le hend) (path ++ [w]) (w.layerEnd + 1)
        rw [List.length_append, List.length_singleton] at hpeak
        exact ⟨fun h => by simp at h, by dsimp only; omega⟩
      · obtain ⟨hsame, hpeak⟩ := hdeep w hw hstart (Nat.lt_of_not_le hend) (path ++ [w]) (w.layerEnd + 1)
        rw [List.length_append, List.length_singleton] at hpeak
        rw [hsame (by simpa using hfound), List.dropLast_concat]
        obtain ⟨hsame', hpeak'⟩ := ih' true path (max missing
          (deeper (w.layerEnd + 1) (path ++ [w]) (w.layerEnd + 1)).missing) (max (max peak (path.length + 1))
          (deeper (w.layerEnd + 1) (path ++ [w]) (w.layerEnd + 1)).peak)
        exact ⟨hsame', by omega⟩

theorem searchWorkers_within (hle : ∀ w ∈ workers, w.layerStart ≤ w.layerEnd) : ∀ (depth next : Nat) (path : List Worker)
    (missing : Nat), Within workers next path path.length (searchWorkers st workers last depth next path missing) := by
  intro depth
  induction depth with
  | zero =>
    intro next path missing
    exact ⟨fun _ => rfl, Nat.le_max_left _ _⟩
  | succ depth ih =>
    intro next path missing
    exact scanWorkers_within (fun w _ _ _ path missing => ih (w.layerEnd + 1) path missing) hle workers (fun w hw => hw) false path
      missing path.length

/-- A search from the empty path writes no more entries than there are workers. -/
theorem searchWorkers_peak (hle : ∀ w ∈ workers, w.layerStart ≤ w.layerEnd) (depth next missing : Nat) :
    (searchWorkers st workers last depth next [] missing).peak ≤ workers.length := by
  obtain ⟨-, hpeak⟩ := @searchWorkers_within st workers last hle depth next [] missing
  have hahead : ahead workers next ≤ workers.length := List.length_filter_le _ _
  rw [List.length_nil] at hpeak
  omega

end

/-! ## What a path is for -/

/-- The layers of a worker, in order. -/
def Worker.layers (w : Worker) : List Nat := List.range' w.layerStart (w.layerEnd + 1 - w.layerStart)

/-- Workers that compute the layers behind the local ones, each once and in order, every one but the last
    returning hidden states, with an output head behind the last layer. -/
structure IsRoute (st : Coordinator) (path : List Worker) : Prop where
  registered : ∀ w ∈ path, w ∈ st.workers
  layers : path.flatMap Worker.layers = List.range' (st.localEnd + 1) (st.nLayers - 1 - st.localEnd)
  hidden : ∀ w ∈ path.dropLast, w.hasHidden = true
  output : match path.getLast? with
    | none => st.localHasOutput = true ∨ st.localCanOutputHead = true
    | some w => w.hasOutput = true ∨ (w.hasHidden = true ∧ st.localCanOutputHead = true)

section
variable {st : Coordinator} {n : Nat}

theorem range'_join {a b c : Nat} (hab : a ≤ b) (hbc : b ≤ c) :
    List.range' a (b - a) ++ List.range' b (c - b) = List.range' a (c - a) := by
  obtain ⟨k, rfl⟩ := Nat.exists_eq_add_of_le hab
  rw [Nat.add_sub_cancel_left, List.range'_append_1]
  congr 1
  omega

theorem range'_split {a b c m : Nat} {r : List Nat} (hb : 0 < b) (h : List.range' a b ++ r = List.range' c m) :
    a = c ∧ b ≤ m ∧ r = List.range' (c + b) (m - b) := by
  have hlen := congrArg List.length h
  rw [List.length_append, List.length_range', List.length_range'] at hlen
  have hbm : b ≤ m := by omega
  have hsplit : List.range' c b ++ List.range' (c + b) (m - b) = List.range' c m := by
    rw [List.range'_append_1, Nat.add_sub_of_le hbm]
  rw [← hsplit] at h
  obtain ⟨h1, h2⟩ := List.append_inj h (by rw [List.length_range', List.length_range'])
  refine ⟨?_, hbm, h2⟩
  obtain ⟨k, rfl⟩ := Nat.exists_eq_succ_of_ne_zero hb.ne'
  rw [List.range'_succ, List.range'_succ] at h1
  exact (List.cons.inj h1).1

theorem candidateOk_iff {w : Worker} {last : Nat} (hout : w.hasOutput = true → w.layerEnd = last) : candidateOk st w last = true ↔
    (w.layerEnd < last → w.hasHidden = true) ∧
    (last ≤ w.layerEnd → w.hasOutput = true ∨ (w.hasHidden = true ∧ st.localCanOutputHead = true)) := by
  rw [candidateOk]
  rcases Nat.lt_or_ge w.layerEnd last with hlt | hge
  · cases ho : w.hasOutput with
    | true => exact absurd (hout ho) (by omega)
    | false => simp [hlt, Nat.not_le.mpr hlt]
  · cases w.hasOutput <;> simp [Nat.not_lt.mpr hge, hge]

/-- Workers that have passed the checks are a chain exactly if they cover the layers from `next` on in order,
    hand hidden states on, and end in an output head. -/
theorem chain_iff (hn : 0 < n) : ∀ (path : List Worker) (next : Nat), path ≠ [] → (∀ w ∈ path, w.Ok n) →
    (Chain st (n - 1) next path ↔
      path.flatMap Worker.layers = List.range' next (n - next) ∧ (∀ w ∈ path.dropLast, w.hasHidden = true) ∧
      ∀ w ∈ path.getLast?, w.hasOutput = true ∨ (w.hasHidden = true ∧ st.localCanOutputHead = true)) := by
  intro path
  induction path with
  | nil =>
    intro next hne
    exact absurd rfl hne
  | cons w path ih =>
    intro next _ hok
    have hw := hok w List.mem_cons_self
    have hpos : 0 < w.layerEnd + 1 - w.layerStart := by have := hw.start_le; omega
    have hcand := @candidateOk_iff st w (n - 1) fun ho => by
      have := hw.output ho
      omega
    have hlt := hw.end_lt
    have hle := hw.start_le
    rw [List.flatMap_cons, Worker.layers]
    cases path with
    | nil =>
      constructor
      · intro h
        cases h with
        | last hc hend =>
          refine ⟨?_, by simp, ?_⟩
          · rw [List.flatMap_nil, List.append_nil, show w.layerEnd + 1 - w.layerStart = n - w.layerStart by omega]
          · rintro v ⟨rfl⟩
            exact (hcand.mp hc).2 hend
        | hop _ _ rest => exact absurd rfl (chain_ne_nil rest)
      · rintro ⟨hlayers, -, hlast⟩
        obtain ⟨rfl, hb, hrest⟩ := range'_split hpos hlayers
        have hlen := congrArg List.length hrest
        rw [List.flatMap_nil, List.length_nil, List.length_range'] at hlen
        exact Chain.last (hcand.mpr ⟨fun h => by omega, fun _ => hlast w rfl⟩) (by omega)
    | cons v path =>
      have ih' := ih (w.layerEnd + 1) (List.cons_ne_nil v path) fun x hx => hok x (List.mem_cons_of_mem _ hx)
      rw [List.dropLast_cons_cons, List.getLast?_cons_cons]
      have hv := hok v (List.mem_cons_of_mem _ List.mem_cons_self)
      constructor
      · intro h
        cases h with
        | hop hc hend rest =>
          obtain ⟨hlayers, hhid, hlast⟩ := ih'.mp rest
          refine ⟨?_, fun x hx => ?_, hlast⟩
          · rw [hlayers]
            exact range'_join (by omega) (by omega)
          · rcases List.mem_cons.mp hx with rfl | hx
            · exact (hcand.mp hc).1 hend
            · exact hhid x hx
      · rintro ⟨hlayers, hhid, hlast⟩
        obtain ⟨rfl, hb, hrest⟩ := range'_split hpos hlayers
        have hvpos : 0 < ((v :: path).flatMap Worker.layers).length := by
          have := hv.start_le
          rw [List.flatMap_cons, List.length_append, Worker.layers, List.length_range']
          omega
        rw [hrest, List.length_range'] at hvpos
        refine Chain.hop (hcand.mpr ⟨fun _ => hhid w List.mem_cons_self, fun h => by omega⟩) (by omega) (ih'.mpr ⟨?_, ?_, hlast⟩)
        · rw [hrest]
          congr 1 <;> omega
        · exact fun x hx => hhid x (List.mem_cons_of_mem _ hx)

end

end Ds4.Dist.Route
