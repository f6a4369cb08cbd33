import Mathlib.Data.List.AList
import Ds4.Rax.Remove

/- The radix tree of rax.c as a dictionary: any sequence of insertions, removals and
   lookups answers as a finite map does.

   PROVED here (`rax_refines`): from an empty tree and with keys that fit in a node,
   every operation stays in bounds and returns what the map returns; at the end the
   lookups are those of the map, `numele` is the number of its keys, `numnodes` is the
   number of nodes, which `raxFree` asserts, and a tree without keys is the empty tree.

   Correspondence (C ↔ Lean):
     `raxInsert`, `raxTryInsert`, `raxRemove`, `raxFind` ↔ the operations `Op` of `Rax.step`
     a finite map, from Mathlib                          ↔ `Dict`, its operations `Dict.step` -/
namespace Ds4.Radix

variable {V : Type}

inductive Op (V : Type) where
  | insert (s : Bytes) (v : V)
  | tryInsert (s : Bytes) (v : V)
  | remove (s : Bytes)
  | find (s : Bytes)

def Op.key : Op V → Bytes
  | .insert s _ | .tryInsert s _ | .remove s | .find s => s

/-- What an operation returns, and the value it found. -/
abbrev Answer (V : Type) := Bool × Option V

def Rax.step (t : Rax V) : Op V → Option (Rax V × Answer V)
  | .insert s v => some (raxGenericInsert t s v true)
  | .tryInsert s v => some (raxGenericInsert t s v false)
  | .remove s => raxRemove t s
  | .find s => some (t, (raxFind t.head s).isSome, raxFind t.head s)

def Rax.run (t : Rax V) : List (Op V) → Option (Rax V × List (Answer V))
  | [] => some (t, [])
  | op :: ops => do
    let (t', a) ← t.step op
    let (t'', as) ← Rax.run t' ops
    some (t'', a :: as)

abbrev Dict (V : Type) := AList fun _ : Bytes => V

def Dict.step (m : Dict V) : Op V → Dict V × Answer V
  | .insert s v => (m.insert s v, (m.lookup s).isNone, m.lookup s)
  | .tryInsert s v => (if (m.lookup s).isNone then m.insert s v else m, (m.lookup s).isNone, m.lookup s)
  | .remove s => (m.erase s, (m.lookup s).isSome, m.lookup s)
  | .find s => (m, (m.lookup s).isSome, m.lookup s)

def Dict.run (m : Dict V) : List (Op V) → Dict V × List (Answer V)
  | [] => (m, [])
  | op :: ops => ((Dict.run (m.step op).1 ops).1, (m.step op).2 :: (Dict.run (m.step op).1 ops).2)

/-- The tree holds the map. -/
structure Holds (t : Rax V) (m : Dict V) : Prop where
  well : Well t
  entries : ∀ s v, (s, v) ∈ t.head.entries ↔ m.lookup s = some v
  numele : t.numele = m.keys.length
  bound : ∀ s v, (s, v) ∈ t.head.entries → s.length ≤ raxNodeMaxSize

theorem Holds.find {t : Rax V} {m : Dict V} (h : Holds t m) (s : Bytes) : raxFind t.head s = m.lookup s := by
  apply Option.ext
  intro v
  rw [raxFind_eq_some h.well.shape, h.entries]

theorem holds_new : Holds (raxNew : Rax V) ∅ where
  well := ⟨shape_bare none, rfl⟩
  entries s v := by
    rw [raxNew, mem_bare rfl rfl]
    simp [RaxNode.empty]
  numele := rfl
  bound s v h := by
    rw [raxNew, mem_bare rfl rfl] at h
    simp [h.1]

theorem length_insert {α β : Type} [DecidableEq α] (m : AList fun _ : α => β) (s : α) (v : β) :
    (m.insert s v).keys.length = m.keys.length + (if (m.lookup s).isNone then 1 else 0) := by
  rw [AList.keys_insert, List.length_cons]
  cases hl : m.lookup s with
  | none =>
    have hs : s ∉ m.keys := AList.lookup_eq_none.mp hl
    simp [List.erase_of_not_mem hs]
  | some w =>
    have hs : s ∈ m.keys := AList.lookup_isSome.mp (by rw [hl]; rfl)
    have := List.length_pos_of_mem hs
    rw [List.length_erase_of_mem hs]
    simp only [Option.isNone_some, Bool.false_eq_true, if_false]
    omega

theorem length_erase {α β : Type} [DecidableEq α] (m : AList fun _ : α => β) (s : α) :
    (m.erase s).keys.length = m.keys.length - (if (m.lookup s).isSome then 1 else 0) := by
  rw [AList.keys_erase]
  cases hl : m.lookup s with
  | none =>
    have hs : s ∉ m.keys := AList.lookup_eq_none.mp hl
    simp [List.erase_of_not_mem hs]
  | some w =>
    have hs : s ∈ m.keys := AList.lookup_isSome.mp (by rw [hl]; rfl)
    simp [List.length_erase_of_mem hs]

/-- A key that is set in the tree and in the map. -/
theorem Holds.set {t t' : Rax V} {m : Dict V} (h : Holds t m) {s : Bytes} {v : V} (hs : s.length ≤ raxNodeMaxSize)
    (hwell : Well t') (hsets : Sets s v t.head t'.head)
    (hnum : t'.numele = t.numele + (if (m.lookup s).isNone then 1 else 0)) : Holds t' (m.insert s v) where
  well := hwell
  entries k w := by
    rw [hsets k w]
    split
    next hk => rw [hk, AList.lookup_insert, Option.some.injEq, eq_comm]
    next hk => rw [AList.lookup_insert_ne hk, h.entries]
  numele := by rw [hnum, h.numele, length_insert]
  bound k w hm := by
    have := (hsets k w).mp hm
    split at this
    next hk => rwa [hk]
    next hk => exact h.bound k w this

/-- One operation does to the tree what it does to the map. -/
theorem step_refines {t : Rax V} {m : Dict V} (h : Holds t m) {op : Op V} (hop : op.key.length ≤ raxNodeMaxSize) :
    ∃ t', t.step op = some (t', (m.step op).2) ∧ Holds t' (m.step op).1 := by
  cases op with
  | insert s v =>
    obtain ⟨hwell, hret, hnum, hsets⟩ := raxGenericInsert_spec h.well s v true
    rw [Bool.or_true, if_pos rfl] at hsets
    rw [h.find] at hret hnum
    exact ⟨_, by rw [Rax.step, Dict.step, ← hret], h.set hop hwell hsets hnum⟩
  | tryInsert s v =>
    obtain ⟨hwell, hret, hnum, hsets⟩ := raxGenericInsert_spec h.well s v false
    rw [h.find] at hret hnum hsets
    refine ⟨_, by rw [Rax.step, Dict.step, ← hret], ?_⟩
    rw [Dict.step]
    by_cases hn : (m.lookup s).isNone = true
    · rw [hn, Bool.true_or, if_pos rfl] at hsets
      rw [if_pos hn]
      exact h.set hop hwell hsets hnum
    · rw [Bool.not_eq_true] at hn
      rw [hn, Bool.or_false, if_neg Bool.false_ne_true] at hsets
      rw [hn, if_neg Bool.false_ne_true, hsets]
      exact h
  | remove s =>
    obtain ⟨t', hrem, hwell, hdrops, hnum⟩ := raxRemove_spec h.well h.bound s
    rw [h.find] at hrem hnum
    refine ⟨t', hrem, hwell, fun k w => ?_, ?_, fun k w hm => h.bound k w ((hdrops k w).mp hm).2⟩
    · rw [hdrops k w, Dict.step, h.entries]
      by_cases hk : k = s
      · subst hk
        simp
      · rw [AList.lookup_erase_ne hk]
        simp [hk]
    · rw [hnum, h.numele, Dict.step, length_erase]
  | find s =>
    refine ⟨t, ?_, h⟩
    rw [Rax.step, Dict.step, h.find]

theorem run_refines {t : Rax V} {m : Dict V} (h : Holds t m) {ops : List (Op V)}
    (hops : ∀ op ∈ ops, op.key.length ≤ raxNodeMaxSize) :
    ∃ t', t.run ops = some (t', (m.run ops).2) ∧ Holds t' (m.run ops).1 := by
  induction ops generalizing t m with
  | nil => exact ⟨t, rfl, h⟩
  | cons op ops ih =>
    obtain ⟨t₁, hstep, h₁⟩ := step_refines h (hops op (List.mem_cons_self ..))
    obtain ⟨t₂, hrun, h₂⟩ := ih h₁ fun o ho => hops o (List.mem_cons_of_mem _ ho)
    refine ⟨t₂, ?_, h₂⟩
    rw [Rax.run, hstep]
    simp only [Option.bind_eq_bind, Option.bind_some, hrun]
    rfl

/-- A well formed tree without keys is the empty tree. -/
theorem Holds.empty {t : Rax V} {m : Dict V} (h : Holds t m) (hm : m.keys = []) : t = raxNew := by
  have hno : ∀ s v, (s, v) ∉ t.head.entries := by
    intro s v hs
    have : s ∈ m.keys := AList.lookup_isSome.mp (by rw [(h.entries s v).mp hs]; rfl)
    rw [hm] at this
    cases this
  have hshape := h.well.shape
  have hbare : t.head.data = [] ∧ t.head.key = none := by
    by_contra hnot
    have hlive : t.head.entries ≠ [] := by
      refine live_of_data hshape ?_
      by_contra h'
      rw [not_or, not_not, not_not] at h'
      exact hnot h'
    obtain ⟨e, he⟩ := List.exists_mem_of_ne_nil _ hlive
    exact hno e.1 e.2 he
  have hcompr : t.head.compr = false := by
    cases hc : t.head.compr with
    | true => exact absurd hbare.1 (hshape.fits.text hc)
    | false => rfl
  have hkids := kids_of_bare hshape hcompr hbare.1
  have hnum := h.numele
  have hnodes := h.well.nodes
  obtain ⟨⟨key, compr, data, kids⟩, numele, numnodes⟩ := t
  simp only at hbare hcompr hkids hnum hnodes
  obtain ⟨rfl, rfl⟩ := hbare
  subst hcompr hkids
  simp only [RaxNode.toSlot, count_child, List.map_nil, List.sum_nil, Nat.add_zero] at hnodes
  rw [hm, List.length_nil] at hnum
  rw [hnum, hnodes]
  rfl

/-- Any run of the radix tree answers as a finite map does. -/
theorem rax_refines {ops : List (Op V)} (hops : ∀ op ∈ ops, op.key.length ≤ raxNodeMaxSize) :
    ∃ t, (raxNew : Rax V).run ops = some (t, (Dict.run ∅ ops).2) ∧
      (∀ s, raxFind t.head s = (Dict.run ∅ ops).1.lookup s) ∧ t.numele = (Dict.run ∅ ops).1.keys.length ∧
      t.numnodes = t.head.toSlot.count ∧ ((Dict.run ∅ ops).1.keys = [] → t = raxNew) := by
  obtain ⟨t, hrun, h⟩ := run_refines holds_new hops
  exact ⟨t, hrun, h.find, h.numele, h.well.nodes, h.empty⟩

/-- "foo", "foobar" and "footer", as in the picture at the top of rax.h, and two of them removed. -/
theorem foo_run : ∃ t, (raxNew : Rax Nat).run
    [.insert [102, 111, 111] 1, .insert [102, 111, 111, 98, 97, 114] 2, .insert [102, 111, 111, 116, 101, 114] 3,
      .tryInsert [102, 111, 111] 4, .remove [102, 111, 111], .remove [102, 111, 111, 116, 101, 114],
      .find [102, 111, 111, 98, 97, 114], .find [102, 111, 111]] =
    some (t, [(true, none), (true, none), (true, none), (false, some 1), (true, some 1), (true, some 3),
      (true, some 2), (false, none)]) := by
  obtain ⟨t, hrun, -⟩ := @rax_refines Nat [.insert [102, 111, 111] 1, .insert [102, 111, 111, 98, 97, 114] 2,
    .insert [102, 111, 111, 116, 101, 114] 3, .tryInsert [102, 111, 111] 4, .remove [102, 111, 111],
    .remove [102, 111, 111, 116, 101, 114], .find [102, 111, 111, 98, 97, 114], .find [102, 111, 111]] (by
      simp [Op.key, raxNodeMaxSize])
  exact ⟨t, hrun⟩

end Ds4.Radix
