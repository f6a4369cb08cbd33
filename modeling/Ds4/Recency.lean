import Mathlib.Data.List.Pairwise
import Mathlib.Data.List.Nodup

/- Association lists in order of last use, the most recent first. `promote k v l`
   is the list after a use of `k` with the value `v`; what is given up is given up
   from the far end, so it leaves a prefix. Nothing here is about one cache.

   PROVED here: a key stays listed at most once (`promote_keys`), a listed value is
   the promoted one or an older one (`mem_promote`), and a relation that every use
   makes hold of the used key before the others orders the list
   (`pairwise_promote`). -/
namespace Ds4

variable {κ υ : Type*} [DecidableEq κ] {l : List (κ × υ)} {k : κ} {v : υ}

/-- The list after a use of `k`, its value now `v`. -/
def promote (k : κ) (v : υ) (l : List (κ × υ)) : List (κ × υ) := (k, v) :: l.filter (fun e => e.1 ≠ k)

theorem mem_promote {e : κ × υ} : e ∈ promote k v l ↔ e = (k, v) ∨ (e ∈ l ∧ e.1 ≠ k) := by
  simp [promote]

/-- What the list says of a key: the promoted one has the new value, the others keep theirs. -/
theorem mem_promote_key {i : κ} {x : υ} : (i, x) ∈ promote k v l ↔ if i = k then x = v else (i, x) ∈ l := by
  rw [mem_promote]
  by_cases h : i = k
  · simp [h]
  · simp [h]

theorem promote_keys (h : (l.map Prod.fst).Nodup) : ((promote k v l).map Prod.fst).Nodup := by
  have hsub : ((l.filter (fun e => e.1 ≠ k)).map Prod.fst).Nodup := h.sublist (List.filter_sublist.map _)
  have hnot : k ∉ (l.filter (fun e => e.1 ≠ k)).map Prod.fst := by simp
  exact List.nodup_cons.mpr ⟨hnot, hsub⟩

/-- The order by last use: `r'` holds after the use of what `r` held of before it. -/
theorem pairwise_promote {r r' : κ → κ → Prop} (h : l.Pairwise fun e e' => r e.1 e'.1)
    (hold : ∀ i j, j ≠ k → r i j → r' i j) (hnew : ∀ j, j ≠ k → r' k j) :
    (promote k v l).Pairwise fun e e' => r' e.1 e'.1 := by
  refine List.pairwise_cons.mpr ⟨fun e he => hnew _ (by simpa using (List.mem_filter.mp he).2), ?_⟩
  refine (h.filter _).imp_of_mem fun {e e'} _ he' hr => ?_
  exact hold _ _ (by simpa using (List.mem_filter.mp he').2) hr

omit [DecidableEq κ] in
/-- A listed key has one value. -/
theorem value_unique (h : (l.map Prod.fst).Nodup) {x y : υ} (hx : (k, x) ∈ l) (hy : (k, y) ∈ l) : x = y := by
  have := List.inj_on_of_nodup_map h hx hy rfl
  exact (Prod.mk.inj this).2

end Ds4
