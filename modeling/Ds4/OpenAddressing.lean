import Mathlib.Data.Finset.Card
import Mathlib.Data.Finset.Range
import Mathlib.Logic.Function.Iterate

/- Open addressing with a fixed probe sequence, over any key and value types.

   A table is `cap` slots, each empty or holding one pair. A key is searched
   from its home slot along `step` until its own pair or an empty slot is met.
   Nothing is ever removed, so two facts carry everything:

   1. `Reached`: every stored pair is where a search for its key ends, so a key
      is stored at most once and `get` is membership (`get_eq_some`);
   2. fewer slots are occupied than there are. The probe sequence visits every
      slot, so a search always ends (`search_isSome`).

   `put_get` is the map law of one put. `putAll_get` is what a table built once
   and only read afterwards gives: what it answers was put for that key, and
   every key put is answered. -/
namespace OpenAddressing

/-- A probe sequence over `cap` slots: `home` starts it, `step` continues it,
    and from any slot it visits every slot within `cap` steps. -/
structure Probe (K : Type) where
  cap : Nat
  home : K → Nat
  step : Nat → Nat
  home_lt : ∀ k, home k < cap
  step_lt : ∀ i, i < cap → step i < cap
  visits : ∀ i j, i < cap → j < cap → ∃ d < cap, step^[d] i = j

abbrev Slots (K V : Type) := Nat → Option (K × V)

variable {K V : Type} [DecidableEq K]

/-- The slot at which the search for `k` ends within `n` probes from `i`. -/
def seek (P : Probe K) (s : Slots K V) (k : K) : Nat → Nat → Option Nat
  | 0, _ => none
  | n + 1, i =>
    match s i with
    | none => some i
    | some e => if e.1 = k then some i else seek P s k n (P.step i)

/-- The search for `k` from its home slot, over the whole table. -/
def search (P : Probe K) (s : Slots K V) (k : K) : Option Nat := seek P s k P.cap (P.home k)

/-- Every stored pair is where the search for its key ends. -/
def Reached (P : Probe K) (s : Slots K V) : Prop :=
  ∀ i e, i < P.cap → s i = some e → search P s e.1 = some i

/-- The slots in use. -/
def occupied (P : Probe K) (s : Slots K V) : Finset Nat :=
  (Finset.range P.cap).filter (fun i => (s i).isSome)

theorem seek_spec (P : Probe K) (s : Slots K V) (k : K) : ∀ (n i j : Nat), i < P.cap →
    seek P s k n i = some j → j < P.cap ∧ (s j = none ∨ ∃ v, s j = some (k, v))
  | 0, _, _, _, h => by simp [seek] at h
  | n + 1, i, j, hi, h => by
    simp only [seek] at h
    cases hs : s i with
    | none =>
      simp only [hs, Option.some.injEq] at h
      exact ⟨h ▸ hi, .inl (h ▸ hs)⟩
    | some e =>
      simp only [hs] at h
      split at h
      · next he =>
        obtain rfl := Option.some.inj h
        exact ⟨hi, .inr ⟨e.2, by rw [hs, ← he]⟩⟩
      · exact seek_spec P s k n _ j (P.step_lt i hi) h

/-- A search that ends nowhere has met a full slot at each of its probes. -/
theorem seek_none (P : Probe K) (s : Slots K V) (k : K) : ∀ (n i : Nat),
    seek P s k n i = none → ∀ d < n, (s (P.step^[d] i)).isSome
  | 0, _, _, _, hd => by omega
  | n + 1, i, h, d, hd => by
    simp only [seek] at h
    cases hs : s i with
    | none => simp [hs] at h
    | some e =>
      simp only [hs] at h
      split at h
      · cases h
      · cases d with
        | zero => simp [hs]
        | succ d =>
          rw [Function.iterate_succ_apply]
          exact seek_none P s k n _ h d (by omega)

/-- With an empty slot left, every search ends. -/
theorem search_isSome (P : Probe K) (s : Slots K V) (k : K)
    (hroom : (occupied P s).card < P.cap) : ∃ i, search P s k = some i := by
  cases hsk : search P s k with
  | some i => exact ⟨i, rfl⟩
  | none =>
    exfalso
    have hall : occupied P s = Finset.range P.cap := by
      apply Finset.filter_true_of_mem
      intro j hj
      obtain ⟨d, hd, hj⟩ := P.visits (P.home k) j (P.home_lt k) (Finset.mem_range.mp hj)
      rw [← hj]
      exact seek_none P s k _ _ hsk d hd
    rw [hall, Finset.card_range] at hroom
    exact Nat.lt_irrefl _ hroom

/-- The value stored for `k`, if any. -/
def get (P : Probe K) (s : Slots K V) (k : K) : Option V :=
  (search P s k).bind fun i => (s i).map Prod.snd

/-- Store `v` for `k`, over a value stored for it before. A full table that
    lacks `k` is left as it is. -/
def put (P : Probe K) (s : Slots K V) (k : K) (v : V) : Slots K V :=
  match search P s k with
  | some i => Function.update s i (some (k, v))
  | none => s

theorem get_eq_some (P : Probe K) (s : Slots K V) (hr : Reached P s) (k : K) (v : V) :
    get P s k = some v ↔ ∃ i < P.cap, s i = some (k, v) := by
  constructor
  · intro h
    obtain ⟨i, hi, hv⟩ := Option.bind_eq_some_iff.mp h
    obtain ⟨⟨k', v'⟩, hs, rfl⟩ := Option.map_eq_some_iff.mp hv
    obtain ⟨hlt, hn | ⟨w, hw⟩⟩ := seek_spec P s k _ _ i (P.home_lt k) hi
    · rw [hs] at hn; cases hn
    · rw [hs] at hw
      obtain ⟨rfl, rfl⟩ := Prod.mk.inj (Option.some.inj hw)
      exact ⟨i, hlt, hs⟩
  · rintro ⟨i, hlt, hs⟩
    have hf := hr i (k, v) hlt hs
    simp only [get, hf, Option.bind_some, hs, Option.map_some]

/-- Writing `k`'s pair where its search ends leaves that search there. -/
theorem seek_update_self (P : Probe K) (s : Slots K V) (k : K) (v : V) (i : Nat) :
    ∀ (n j : Nat), seek P s k n j = some i →
    seek P (Function.update s i (some (k, v))) k n j = some i
  | 0, _, h => by simp [seek] at h
  | n + 1, j, h => by
    by_cases hji : j = i
    · simp [seek, hji]
    · simp only [seek, Function.update_of_ne hji] at h ⊢
      cases hs : s j with
      | none => simp only [hs] at h ⊢; exact h
      | some e =>
        simp only [hs] at h ⊢
        split at h
        · exact absurd (Option.some.inj h) hji
        · next he =>
          rw [if_neg he]
          exact seek_update_self P s k v i n _ h

/-- Writing another key's pair elsewhere does not move a search that ended at
    a stored pair. -/
theorem seek_update_other (P : Probe K) (s : Slots K V) (k k' : K) (v : V) (i i' : Nat)
    (hk : k ≠ k') (hi : i ≠ i') : ∀ (n j : Nat), seek P s k' n j = some i' →
    seek P (Function.update s i (some (k, v))) k' n j = some i'
  | 0, _, h => by simp [seek] at h
  | n + 1, j, h => by
    by_cases hji : j = i
    · subst hji
      simp only [seek, Function.update_self, if_neg hk] at h ⊢
      cases hs : s j with
      | none => simp only [hs] at h; exact absurd (Option.some.inj h) hi
      | some e =>
        simp only [hs] at h
        split at h
        · exact absurd (Option.some.inj h) hi
        · exact seek_update_other P s k k' v j i' hk hi n _ h
    · simp only [seek, Function.update_of_ne hji] at h ⊢
      cases hs : s j with
      | none => simp only [hs] at h ⊢; exact h
      | some e =>
        simp only [hs] at h ⊢
        split at h
        · next he => rw [if_pos he]; exact h
        · next he =>
          rw [if_neg he]
          exact seek_update_other P s k k' v i i' hk hi n _ h

theorem put_reached (P : Probe K) (s : Slots K V) (hr : Reached P s) (k : K) (v : V) :
    Reached P (put P s k v) := by
  unfold put
  cases hsk : search P s k with
  | none => exact hr
  | some i =>
    intro j e hj hs
    by_cases hji : j = i
    · subst hji
      simp only [Function.update_self, Option.some.injEq] at hs
      subst hs
      exact seek_update_self P s k v j _ _ hsk
    · simp only [Function.update_of_ne hji] at hs
      have hfound := hr j e hj hs
      have hk : k ≠ e.1 := by
        rintro rfl
        exact hji (Option.some.inj (hfound.symm.trans hsk))
      exact seek_update_other P s k e.1 v i j hk (Ne.symm hji) _ _ hfound

theorem put_occupied (P : Probe K) (s : Slots K V) (k : K) (v : V) :
    (occupied P (put P s k v)).card ≤ (occupied P s).card + 1 := by
  unfold put
  cases search P s k with
  | none => exact Nat.le_succ _
  | some i =>
    refine le_trans (Finset.card_le_card ?_) (Finset.card_insert_le i _)
    intro j hj
    by_cases hji : j = i
    · exact Finset.mem_insert.mpr (.inl hji)
    · simp only [occupied, Finset.mem_filter, Function.update_of_ne hji] at hj
      exact Finset.mem_insert_of_mem (Finset.mem_filter.mpr hj)

/-- One put: the key reads back the new value, every other key what it held. -/
theorem put_get (P : Probe K) (s : Slots K V) (hr : Reached P s)
    (hroom : (occupied P s).card < P.cap) (k k' : K) (v : V) :
    get P (put P s k v) k' = if k' = k then some v else get P s k' := by
  have hr' := put_reached P s hr k v
  obtain ⟨i, hi⟩ := search_isSome P s k hroom
  obtain ⟨hlt, hslot⟩ := seek_spec P s k _ _ i (P.home_lt k) hi
  have hput : put P s k v = Function.update s i (some (k, v)) := by simp only [put, hi]
  have hmem : ∀ w, k' ≠ k → ((∃ j < P.cap, put P s k v j = some (k', w)) ↔
      ∃ j < P.cap, s j = some (k', w)) := by
    intro w hk
    refine exists_congr fun j => and_congr_right fun _ => ?_
    rw [hput]
    by_cases hji : j = i
    · subst hji
      rw [Function.update_self]
      refine ⟨fun h => absurd (Prod.mk.inj (Option.some.inj h)).1.symm hk, fun h => ?_⟩
      rcases hslot with hn | ⟨u, hu⟩
      · rw [hn] at h; cases h
      · rw [hu] at h; exact absurd (Prod.mk.inj (Option.some.inj h)).1.symm hk
    · rw [Function.update_of_ne hji]
  split
  · next hk =>
    subst hk
    exact (get_eq_some P _ hr' k' v).mpr ⟨i, hlt, by rw [hput, Function.update_self]⟩
  · next hk =>
    apply Option.ext
    intro w
    rw [get_eq_some P _ hr', get_eq_some P s hr]
    exact hmem w hk

/-- The table after a list of puts, in order. -/
def putAll (P : Probe K) (s : Slots K V) (es : List (K × V)) : Slots K V :=
  es.foldl (fun s e => put P s e.1 e.2) s

theorem putAll_reached (P : Probe K) : ∀ (es : List (K × V)) (s : Slots K V), Reached P s →
    Reached P (putAll P s es)
  | [], _, hr => hr
  | e :: es, s, hr => putAll_reached P es _ (put_reached P s hr e.1 e.2)

/-- With room for every pair, a stored value was put for its key, or was there
    before, and a key that was put or was there has a value. -/
theorem putAll_get (P : Probe K) : ∀ (es : List (K × V)) (s : Slots K V), Reached P s →
    (occupied P s).card + es.length < P.cap → ∀ k,
    (∀ v, get P (putAll P s es) k = some v → (k, v) ∈ es ∨ get P s k = some v) ∧
    ((∃ v, (k, v) ∈ es) ∨ (get P s k).isSome → (get P (putAll P s es) k).isSome)
  | [], s, _, _, k => by simp [putAll]
  | (a, b) :: es, s, hr, hroom, k => by
    have hlen : (occupied P s).card < P.cap := by simp at hroom; omega
    have hocc := put_occupied P s a b
    obtain ⟨hfrom, hto⟩ := putAll_get P es (put P s a b) (put_reached P s hr a b)
      (by simp at hroom; omega) k
    have hg := put_get P s hr hlen a k b
    refine ⟨fun v h => ?_, fun h => hto ?_⟩
    · rcases hfrom v h with hm | hs
      · exact .inl (List.mem_cons_of_mem _ hm)
      · rw [hg] at hs
        split at hs
        · next hk => left; rw [hk, ← Option.some.inj hs]; exact List.mem_cons_self
        · exact .inr hs
    · rw [hg]
      rcases h with ⟨v, hv⟩ | hs
      · rcases List.mem_cons.mp hv with hv | hv
        · right; rw [if_pos (Prod.mk.inj hv).1]; rfl
        · exact .inl ⟨v, hv⟩
      · right; split
        · rfl
        · exact hs

end OpenAddressing
