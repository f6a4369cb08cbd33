import Ds4.Runs
import Ds4.Server.ToolMemoryInvariant

/- The tool memory over whole runs of puts, lookups and prunes.

   PROVED here: in every state reached the structures agree and the limits hold,
   a lookup gives the text last put under the id unless that entry was evicted
   since, and what an operation evicts was used before everything it keeps
   (`tool_memory_runs`).

   A limit of zero or less stands for the default, so the bounds are
   `toolMemoryMaxEntries` and `toolMemoryMaxBytes` and not the fields
   (`unlimited_entries`). -/
namespace Ds4.Server
open Ds4 Runs

inductive MemoryOp where
  | put (id dsml : Bytes) (source : ToolMemorySource)
  | lookup (id : Bytes)
  | prune
  deriving DecidableEq, Repr

def memoryStep (m : ToolMemory) : MemoryOp → ToolMemory
  | .put id dsml source => toolMemoryPut m id dsml source
  | .lookup id => (toolMemoryLookup m id).1
  | .prune => toolMemoryPrune m

/-- The text a lookup returns. -/
def recalled (m : ToolMemory) (id : Bytes) : Option Bytes := (toolMemoryLookup m id).2.map Prod.fst

/-- The text an operation puts under the id. -/
def putOf (id : Bytes) : MemoryOp → Option Bytes
  | .put i dsml _ => if i = id ∧ i ≠ [] ∧ dsml ≠ [] then some dsml else none
  | _ => none

/-- The last text put under the id. -/
def lastPut (id : Bytes) (ops : List MemoryOp) : Option Bytes := (ops.filterMap (putOf id)).getLast?

def Puts (id : Bytes) (_ : ToolMemory) (op : MemoryOp) : Prop := (putOf id op).isSome

/-- The operation puts the id, or looks it up and finds it. -/
def Uses (id : Bytes) (m : ToolMemory) (op : MemoryOp) : Prop :=
  Puts id m op ∨ (op = .lookup id ∧ (recalled m id).isSome)

/-- The id was there, or is put, and is gone afterwards. -/
def Evicts (id : Bytes) (m : ToolMemory) (op : MemoryOp) : Prop :=
  ((recalled m id).isSome ∨ Puts id m op) ∧ recalled (memoryStep m op) id = none

/-- `i` was used after the last use of `j`. -/
def MoreRecent (s : ToolMemory) (ops : List MemoryOp) (i j : Bytes) : Prop :=
  Since memoryStep (fun m op => Uses i m op ∧ ¬Uses j m op) (Uses j) s ops

/-- The id was evicted, and not put again since. -/
def EvictedSince (s : ToolMemory) (ops : List MemoryOp) (id : Bytes) : Prop :=
  Since memoryStep (Evicts id) (Puts id) s ops

variable {m : ToolMemory}

theorem recall_eq (hm : Consistent m) (id d : Bytes) : recalled m id = some d ↔ (id, d) ∈ contents m := by
  obtain ⟨-, -, ⟨hnone, -, hno⟩ | ⟨x, source, hsome, hin, -⟩⟩ := lookup_spec hm id
  · rw [recalled, hnone]
    exact ⟨fun h => absurd h (by simp), fun h => absurd h (hno d)⟩
  · rw [recalled, hsome, Option.map_some, Option.some.injEq]
    exact ⟨fun h => h ▸ hin, fun h => value_unique (contents_keys hm) hin h⟩

theorem recall_isSome (hm : Consistent m) (id : Bytes) : (recalled m id).isSome ↔ ∃ d, (id, d) ∈ contents m := by
  rw [Option.isSome_iff_exists]
  exact exists_congr fun d => recall_eq hm id d

theorem lookup_fits (id : Bytes) (hfit : Fits m) : Fits (toolMemoryLookup m id).1 := by
  unfold toolMemoryLookup
  split
  next => exact hfit
  next =>
    split
    next => exact hfit
    next =>
      split
      next => exact hfit
      next => exact hfit

/-- What one operation does to the contents: at most one id is used and promoted,
   and of the list this gives a prefix stays. -/
inductive Promotes (m : ToolMemory) (op : MemoryOp) : List (Bytes × Bytes) → Prop where
  | idle (hno : ∀ i, ¬Uses i m op) : Promotes m op (contents m)
  | use (k v : Bytes) (huse : ∀ i, Uses i m op ↔ i = k) (hval : putOf k op = some v ∨ (k, v) ∈ contents m)
      (hput : ∀ w, putOf k op = some w → w = v) : Promotes m op (promote k v (contents m))

theorem memoryStep_spec (hm : Consistent m) (hfit : Fits m) (op : MemoryOp) :
    Consistent (memoryStep m op) ∧ Fits (memoryStep m op) ∧ SameLimits m (memoryStep m op) ∧
      ∃ pre, Promotes m op pre ∧ contents (memoryStep m op) <+: pre := by
  cases op with
  | put id dsml source =>
    by_cases hskip : id = [] ∨ dsml = []
    · have hstep : memoryStep m (.put id dsml source) = m := if_pos hskip
      rw [hstep]
      refine ⟨hm, hfit, ⟨rfl, rfl⟩, _, .idle (fun i hu => ?_), List.prefix_rfl⟩
      rcases hu with hu | ⟨hu, -⟩
      · simp only [Puts, putOf, Option.isSome_ite] at hu
        rcases hskip with h | h
        · exact hu.2.1 h
        · exact hu.2.2 h
      · cases hu
    · have hstep : memoryStep m (.put id dsml source) = toolMemoryPrune (putEntry m id dsml source) := if_neg hskip
      rw [not_or] at hskip
      obtain ⟨hc, hcon, hlim⟩ := putEntry_spec source hm hskip.1 hskip.2
      obtain ⟨hpc, hpf, hpp, hpl⟩ := prune_spec hc
      have hput : putOf id (.put id dsml source) = some dsml := if_pos ⟨rfl, hskip.1, hskip.2⟩
      rw [hstep]
      refine ⟨hpc, hpf, hlim.trans hpl, promote id dsml (contents m), .use id dsml (fun i => ?_) (.inl hput) ?_, ?_⟩
      · simp only [Uses, Puts, putOf, Option.isSome_ite, reduceCtorEq, false_and, or_false]
        exact ⟨fun h => h.1.symm, fun h => ⟨h.symm, hskip.1, hskip.2⟩⟩
      · intro w hw
        rw [hput] at hw
        exact (Option.some.inj hw).symm
      · rw [← hcon]
        exact hpp
  | lookup id =>
    obtain ⟨hc, hlim, hres⟩ := lookup_spec hm id
    refine ⟨hc, lookup_fits id hfit, hlim, ?_⟩
    obtain ⟨hnone, hsame, -⟩ | ⟨d, source, hsome, hin, hcon⟩ := hres
    · refine ⟨contents m, .idle (fun i hu => ?_), ?_⟩
      · rcases hu with hu | ⟨hi, hu⟩
        · cases hu
        · cases hi
          simp [recalled, hnone] at hu
      · change contents (toolMemoryLookup m id).1 <+: contents m
        rw [hsame]
    · refine ⟨promote id d (contents m), .use id d (fun i => ?_) (.inr hin) (fun w hw => by cases hw), ?_⟩
      · constructor
        · rintro (hu | ⟨hi, -⟩)
          · cases hu
          · cases hi
            rfl
        · rintro rfl
          exact .inr ⟨rfl, by simp [recalled, hsome]⟩
      · change contents (toolMemoryLookup m id).1 <+: _
        rw [hcon]
  | prune =>
    obtain ⟨hpc, hpf, hpp, hpl⟩ := prune_spec hm
    refine ⟨hpc, hpf, hpl, contents m, .idle (fun i hu => ?_), hpp⟩
    rcases hu with hu | ⟨hi, -⟩
    · cases hu
    · cases hi

/-! ## Runs -/

section
variable {s : ToolMemory} {ops : List MemoryOp} {op : MemoryOp} {pre : List (Bytes × Bytes)}

/-- One more operation keeps the order by last use, up to what it evicts. -/
theorem promotes_ordered (hpre : Promotes (run memoryStep s ops) op pre)
    (hord : (contents (run memoryStep s ops)).Pairwise fun p q => MoreRecent s ops p.1 q.1) :
    pre.Pairwise fun p q => MoreRecent s (ops ++ [op]) p.1 q.1 := by
  cases hpre with
  | idle hno => exact hord.imp fun h => since_concat.mpr (.inr ⟨h, hno _⟩)
  | use k v huse hval hput =>
    refine pairwise_promote hord (fun i j hj h => ?_) (fun j hj => ?_)
    · exact since_concat.mpr (.inr ⟨h, fun hu => hj ((huse j).mp hu)⟩)
    · exact since_concat.mpr (.inl ⟨(huse k).mpr rfl, fun hu => hj ((huse j).mp hu)⟩)

/-- What is evicted was used before all that is kept. -/
theorem evicts_oldest (hpre : Promotes (run memoryStep s ops) op pre) (hm : Consistent (run memoryStep s ops))
    (hm' : Consistent (memoryStep (run memoryStep s ops) op))
    (hkept : contents (memoryStep (run memoryStep s ops) op) <+: pre)
    (hord : pre.Pairwise fun p q => MoreRecent s (ops ++ [op]) p.1 q.1) {id id' : Bytes}
    (hev : Evicts id (run memoryStep s ops) op) (hid' : (recalled (memoryStep (run memoryStep s ops) op) id').isSome) :
    MoreRecent s (ops ++ [op]) id' id := by
  obtain ⟨hwas, hgone⟩ := hev
  -- the evicted id stood on the list before the prune
  have hstood : ∃ d, (id, d) ∈ pre := by
    cases hpre with
    | idle hno =>
      rcases hwas with hwas | hput
      · exact (recall_isSome hm id).mp hwas
      · exact absurd (.inl hput) (hno id)
    | use k v huse hval hput =>
      by_cases hk : id = k
      · exact ⟨v, mem_promote.mpr (.inl (by rw [hk]))⟩
      · rcases hwas with hwas | hput
        · obtain ⟨d, hd⟩ := (recall_isSome hm id).mp hwas
          exact ⟨d, mem_promote.mpr (.inr ⟨hd, hk⟩)⟩
        · exact absurd ((huse id).mp (.inl hput)) hk
  obtain ⟨d, hd⟩ := hstood
  obtain ⟨d', hd'⟩ := (recall_isSome hm' id').mp hid'
  obtain ⟨rest, hrest⟩ := hkept
  rw [← hrest] at hd hord
  rcases List.mem_append.mp hd with hin | hin
  · rw [(recall_eq hm' id d).mpr hin] at hgone
    cases hgone
  · exact (List.pairwise_append.mp hord).2.2 (id', d') hd' (id, d) hin

theorem lastPut_concat (id : Bytes) : lastPut id (ops ++ [op]) = (putOf id op).or (lastPut id ops) := by
  rw [lastPut, List.filterMap_append, List.getLast?_append]
  cases h : putOf id op with
  | none => simp [h, lastPut]
  | some d => simp [h]

/-- One more operation keeps what a lookup returns: the last put, unless evicted since. -/
theorem recall_concat (hpre : Promotes (run memoryStep s ops) op pre) (hm : Consistent (run memoryStep s ops))
    (hm' : Consistent (memoryStep (run memoryStep s ops) op))
    (hkept : contents (memoryStep (run memoryStep s ops) op) <+: pre) {id : Bytes}
    (ih : (EvictedSince s ops id → recalled (run memoryStep s ops) id = none) ∧
      (¬EvictedSince s ops id → recalled (run memoryStep s ops) id = lastPut id ops)) :
    (EvictedSince s (ops ++ [op]) id → recalled (memoryStep (run memoryStep s ops) op) id = none) ∧
      (¬EvictedSince s (ops ++ [op]) id →
        recalled (memoryStep (run memoryStep s ops) op) id = lastPut id (ops ++ [op])) := by
  -- a text that is still there is the one just put, or the one that was there
  have hstill : ∀ x, recalled (memoryStep (run memoryStep s ops) op) id = some x →
      putOf id op = some x ∨ (putOf id op = none ∧ recalled (run memoryStep s ops) id = some x) := by
    intro x hx
    have hin := hkept.subset ((recall_eq hm' id x).mp hx)
    have hnoput : ∀ hno : ¬Uses id (run memoryStep s ops) op, putOf id op = none := by
      intro hno
      cases hput : putOf id op with
      | none => rfl
      | some w => exact absurd (.inl (by simp [Puts, hput])) hno
    cases hpre with
    | idle hno => exact .inr ⟨hnoput (hno id), (recall_eq hm id x).mpr hin⟩
    | use k v huse hval hput =>
      rcases mem_promote.mp hin with heq | ⟨hin, hk⟩
      · obtain ⟨rfl, rfl⟩ := Prod.mk.inj heq
        cases hp : putOf id op with
        | none =>
          rcases hval with hval | hval
          · rw [hp] at hval
            cases hval
          · exact .inr ⟨rfl, (recall_eq hm id x).mpr hval⟩
        | some w => exact .inl (by rw [hput w hp])
      · exact .inr ⟨hnoput fun hu => hk ((huse id).mp hu), (recall_eq hm id x).mpr hin⟩
  rw [EvictedSince, since_concat, lastPut_concat]
  cases hnow : recalled (memoryStep (run memoryStep s ops) op) id with
  | some x =>
    have hnev : ¬Evicts id (run memoryStep s ops) op := fun hev => by
      rw [hev.2] at hnow
      cases hnow
    rcases hstill x hnow with hput | ⟨hput, hwas⟩
    · have hputs : Puts id (run memoryStep s ops) op := by simp [Puts, hput]
      simp [hnev, hputs, hput]
    · have hnot : ¬EvictedSince s ops id := fun hev => by
        rw [ih.1 hev] at hwas
        cases hwas
      have hlast := ih.2 hnot
      rw [hwas] at hlast
      have hnot' : ¬Since memoryStep (Evicts id) (Puts id) s ops := hnot
      simp [hnev, hnot', hput, ← hlast]
  | none =>
    refine ⟨fun _ => rfl, fun hnot => ?_⟩
    rw [not_or, not_and] at hnot
    obtain ⟨hnev, hkeep⟩ := hnot
    have hputs : ¬Puts id (run memoryStep s ops) op := fun hput => hnev ⟨.inr hput, hnow⟩
    have hput : putOf id op = none := by simpa [Puts] using hputs
    have hwas : recalled (run memoryStep s ops) id = none := by
      cases hr : recalled (run memoryStep s ops) id with
      | none => rfl
      | some x => exact absurd ⟨.inl (by simp [hr]), hnow⟩ hnev
    have hold : ¬EvictedSince s ops id := fun hev => hkeep hev hputs
    rw [hput, Option.none_or, ← ih.2 hold, hwas]

end

/-- What every run keeps, from the memory with nothing in it. -/
theorem run_kept (maxEntries : Int) (maxBytes : Nat) (ops : List MemoryOp) :
    Consistent (run memoryStep (ToolMemory.empty maxEntries maxBytes) ops) ∧
      Fits (run memoryStep (ToolMemory.empty maxEntries maxBytes) ops) ∧
      SameLimits (ToolMemory.empty maxEntries maxBytes) (run memoryStep (ToolMemory.empty maxEntries maxBytes) ops) ∧
      ((contents (run memoryStep (ToolMemory.empty maxEntries maxBytes) ops)).Pairwise fun p q =>
        MoreRecent (ToolMemory.empty maxEntries maxBytes) ops p.1 q.1) ∧
      ∀ id,
        (EvictedSince (ToolMemory.empty maxEntries maxBytes) ops id →
          recalled (run memoryStep (ToolMemory.empty maxEntries maxBytes) ops) id = none) ∧
        (¬EvictedSince (ToolMemory.empty maxEntries maxBytes) ops id →
          recalled (run memoryStep (ToolMemory.empty maxEntries maxBytes) ops) id = lastPut id ops) := by
  induction ops using List.reverseRecOn with
  | nil =>
    have hc := consistent_empty maxEntries maxBytes
    refine ⟨hc, fits_of_nil hc rfl, ⟨rfl, rfl⟩, List.Pairwise.nil, fun id => ⟨fun h => h.elim, fun _ => ?_⟩⟩
    have hnone : recalled (ToolMemory.empty maxEntries maxBytes) id = none := by
      cases hr : recalled (ToolMemory.empty maxEntries maxBytes) id with
      | none => rfl
      | some d => exact absurd ((recall_eq hc id d).mp hr) (by simp [contents, ToolMemory.empty])
    exact hnone
  | append_singleton ops op ih =>
    obtain ⟨hc, hfit, hlim, hord, hrec⟩ := ih
    obtain ⟨hc', hfit', hlim', pre, hpre, hkept⟩ := memoryStep_spec hc hfit op
    rw [run_concat]
    refine ⟨hc', hfit', hlim.trans hlim', ?_, fun id => recall_concat hpre hc hc' hkept (hrec id)⟩
    exact (promotes_ordered hpre hord).sublist hkept.sublist

/-- The tool memory after any run of operations from empty, and one more operation. -/
theorem tool_memory_runs (maxEntries : Int) (maxBytes : Nat) (ops : List MemoryOp) :
    Consistent (run memoryStep (ToolMemory.empty maxEntries maxBytes) ops) ∧
    (run memoryStep (ToolMemory.empty maxEntries maxBytes) ops).entries ≤
      (if maxEntries > 0 then maxEntries.toNat else 100000) ∧
    (run memoryStep (ToolMemory.empty maxEntries maxBytes) ops).bytes ≤
      (if maxBytes > 0 then maxBytes else 512 * 1024 * 1024) ∧
    (∀ id,
      (EvictedSince (ToolMemory.empty maxEntries maxBytes) ops id →
        recalled (run memoryStep (ToolMemory.empty maxEntries maxBytes) ops) id = none) ∧
      (¬EvictedSince (ToolMemory.empty maxEntries maxBytes) ops id →
        recalled (run memoryStep (ToolMemory.empty maxEntries maxBytes) ops) id = lastPut id ops)) ∧
    ∀ op id id', Evicts id (run memoryStep (ToolMemory.empty maxEntries maxBytes) ops) op →
      (recalled (run memoryStep (ToolMemory.empty maxEntries maxBytes) (ops ++ [op])) id').isSome →
      MoreRecent (ToolMemory.empty maxEntries maxBytes) (ops ++ [op]) id' id := by
  obtain ⟨hc, hfit, ⟨hentries, hbytes⟩, hord, hrec⟩ := run_kept maxEntries maxBytes ops
  refine ⟨hc, ?_, ?_, hrec, fun op id id' hev hid' => ?_⟩
  · have h := hfit.1
    rw [toolMemoryMaxEntries, hentries] at h
    exact h
  · have h := hfit.2
    rw [toolMemoryMaxBytes, hbytes] at h
    exact h
  · obtain ⟨hc', -, -, pre, hpre, hkept⟩ := memoryStep_spec hc hfit op
    rw [run_concat] at hid'
    exact evicts_oldest hpre hc hc' hkept (promotes_ordered hpre hord) hev hid'

/-- A memory whose `max_entries` is zero takes an entry. -/
theorem unlimited_entries :
    ¬((run memoryStep (ToolMemory.empty 0 0) [.put [99] [60] .ram]).entries : Int) ≤
      (run memoryStep (ToolMemory.empty 0 0) [.put [99] [60] .ram]).maxEntries := by
  decide

end Ds4.Server
