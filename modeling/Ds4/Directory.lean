import Mathlib.Algebra.GroupWithZero.Nat
import Mathlib.Algebra.BigOperators.Group.List.Basic
import Mathlib.Data.List.AList

/- Weighted finite maps, and trimming one to a bound.

   `weight f m` is the sum of what `f` gives for the entries of `m`; removing a
   key takes its share off, inserting one puts it on. `trim` removes elements of
   a list one by one, the next victim chosen by the caller, until the weight
   left is at most a target. PROVED here: what is left fits (`trim_fits`), and
   each victim went while what was left did not fit (`trim_needed`). -/
namespace Ds4

section
variable {α : Type*} [DecidableEq α] {β : α → Type*}

/-- The sum of `f` over the entries of a finite map. -/
def weight (f : (a : α) → β a → Nat) (m : AList β) : Nat := (m.entries.map fun e => f e.1 e.2).sum

variable {f : (a : α) → β a → Nat} {m : AList β}

theorem weight_erase {a : α} {b : β a} (h : m.lookup a = some b) : f a b + weight f (m.erase a) = weight f m := by
  have hmem : a ∈ m.entries.keys := AList.mem_keys.mp (AList.lookup_isSome.mp (by rw [h]; rfl))
  obtain ⟨b', l₁, l₂, hnot, hl, hk⟩ := List.exists_of_kerase hmem
  have hb : b' = b := by
    have hin : (⟨a, b'⟩ : Sigma β) ∈ m.entries := by
      rw [hl]
      simp
    have := (AList.mem_lookup_iff (s := m)).mpr hin
    rw [h] at this
    exact (Option.some.inj this).symm
  change f a b + ((m.entries.kerase a).map fun e => f e.1 e.2).sum = (m.entries.map fun e => f e.1 e.2).sum
  rw [hk, hl, hb]
  simp only [List.map_append, List.map_cons, List.sum_append, List.sum_cons]
  omega

theorem erase_of_lookup_none {a : α} (h : m.lookup a = none) : m.erase a = m := by
  apply AList.ext
  apply List.kerase_of_notMem_keys
  exact AList.lookup_eq_none.mp h

theorem weight_erase_le (a : α) : weight f (m.erase a) ≤ weight f m := by
  cases h : m.lookup a with
  | none => rw [erase_of_lookup_none h]
  | some b =>
    have := weight_erase (f := f) h
    omega

theorem weight_insert (a : α) (b : β a) : weight f (m.insert a b) = f a b + weight f (m.erase a) := by
  change ((m.entries.kinsert a b).map fun e => f e.1 e.2).sum = f a b + ((m.entries.kerase a).map fun e => f e.1 e.2).sum
  simp [List.kinsert_def]

omit [DecidableEq α] in
/-- The sum over a listing of the entries in any order. -/
theorem weight_perm {l : List (Sigma β)} (h : l.Perm m.entries) : (l.map fun e => f e.1 e.2).sum = weight f m :=
  (h.map _).sum_eq

end

/-! ## Trimming -/

section
variable {ε : Type*}

/-- The victims in the order they go, and what stays. `fuel` bounds the rounds,
   and the length of the list is enough. -/
def trim (victim : List ε → Nat) (size : ε → Nat) (target : Nat) : Nat → Nat → List ε → List ε × List ε
  | 0, _, l => ([], l)
  | fuel + 1, total, l =>
    if total > target ∧ l ≠ [] then
      match l[victim l]? with
      | some e =>
        let (gone, kept) := trim victim size target fuel (if total ≥ size e then total - size e else 0) (l.eraseIdx (victim l))
        (e :: gone, kept)
      | none => ([], l)
    else ([], l)

variable {victim : List ε → Nat} {size : ε → Nat} {target : Nat}

theorem sum_eraseIdx (size : ε → Nat) {l : List ε} {i : Nat} {e : ε} (h : l[i]? = some e) :
    size e + ((l.eraseIdx i).map size).sum = (l.map size).sum := by
  obtain ⟨hi, rfl⟩ := List.getElem?_eq_some_iff.mp h
  have hp := List.getElem_cons_eraseIdx_perm hi
  rw [← List.sum_cons, ← List.map_cons]
  exact (hp.map size).sum_eq

/-- The next round of a trim that has to go on. -/
theorem trim_succ {l : List ε} {e : ε} {fuel : Nat} (h : target < (l.map size).sum) (he : l[victim l]? = some e) :
    trim victim size target (fuel + 1) (l.map size).sum l =
      (e :: (trim victim size target fuel ((l.eraseIdx (victim l)).map size).sum (l.eraseIdx (victim l))).1,
        (trim victim size target fuel ((l.eraseIdx (victim l)).map size).sum (l.eraseIdx (victim l))).2) := by
  have hne : l ≠ [] := by
    intro hl
    simp [hl] at he
  have hs := sum_eraseIdx size he
  rw [trim, if_pos ⟨h, hne⟩, he]
  dsimp only
  rw [if_pos (by omega), show (l.map size).sum - size e = ((l.eraseIdx (victim l)).map size).sum by omega]

/-- Nothing goes when everything fits. -/
theorem trim_of_fits {l : List ε} {fuel : Nat} (h : (l.map size).sum ≤ target) :
    trim victim size target fuel (l.map size).sum l = ([], l) := by
  cases fuel with
  | zero => rfl
  | succ fuel => rw [trim, if_neg (by omega)]

theorem trim_fits (hv : ∀ l : List ε, l ≠ [] → victim l < l.length) (size : ε → Nat) (target : Nat) (fuel : Nat) :
    ∀ l : List ε, l.length ≤ fuel →
    ((trim victim size target fuel (l.map size).sum l).2.map size).sum ≤ target := by
  induction fuel with
  | zero =>
    intro l hl
    rw [List.length_eq_zero_iff.mp (Nat.le_zero.mp hl)]
    simp [trim]
  | succ fuel ih =>
    intro l hl
    by_cases hfit : (l.map size).sum ≤ target
    · rw [trim_of_fits hfit]
      exact hfit
    · have hne : l ≠ [] := by
        intro h
        simp [h] at hfit
      have hi := hv l hne
      rw [trim_succ (by omega) (List.getElem?_eq_getElem hi)]
      apply ih
      rw [List.length_eraseIdx_of_lt hi]
      omega

theorem trim_perm (victim : List ε → Nat) (size : ε → Nat) (target : Nat) (fuel : Nat) : ∀ l : List ε,
    ((trim victim size target fuel (l.map size).sum l).1 ++ (trim victim size target fuel (l.map size).sum l).2).Perm l := by
  induction fuel with
  | zero =>
    intro l
    exact List.Perm.refl _
  | succ fuel ih =>
    intro l
    by_cases hfit : (l.map size).sum ≤ target
    · rw [trim_of_fits hfit]
      exact List.Perm.refl _
    · cases he : l[victim l]? with
      | none =>
        rw [trim, he]
        split_ifs <;> exact List.Perm.refl _
      | some e =>
        rw [trim_succ (by omega) he]
        obtain ⟨hi, rfl⟩ := List.getElem?_eq_some_iff.mp he
        exact (List.Perm.cons _ (ih _)).trans (List.getElem_cons_eraseIdx_perm hi)

/-- A victim goes only while what is left with it does not fit. -/
theorem trim_needed (victim : List ε → Nat) (size : ε → Nat) (target : Nat) (fuel : Nat) :
    ∀ l : List ε, ∀ p q : List ε, ∀ e : ε,
    (trim victim size target fuel (l.map size).sum l).1 = p ++ e :: q →
      target + (p.map size).sum < (l.map size).sum := by
  induction fuel with
  | zero =>
    intro l p q e h
    simp [trim] at h
  | succ fuel ih =>
    intro l p q e h
    by_cases hfit : (l.map size).sum ≤ target
    · rw [trim_of_fits hfit] at h
      simp at h
    · cases hg : l[victim l]? with
      | none =>
        rw [trim, hg] at h
        split_ifs at h <;> simp at h
      | some g =>
        rw [trim_succ (by omega) hg] at h
        have hs := sum_eraseIdx size hg
        cases p with
        | nil =>
          simp only [List.map_nil, List.sum_nil]
          omega
        | cons g' p =>
          have hcons := List.cons.inj h
          have := ih _ p q e hcons.2
          rw [hcons.1] at hs
          simp only [List.map_cons, List.sum_cons]
          omega

end
end Ds4
