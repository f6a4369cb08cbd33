import Mathlib.Analysis.Complex.ExponentialBounds
import Ds4.Sampling.Nucleus
import Ds4.Sampling.SpecLaw

/- The speculative truncation against what the plain samplers draw from.

   Every sampler ranks the finite entries (`ranked`) and keeps the first of them, so
   what it draws from is decided by how many it keeps. `IsCut` says how many: a cut
   ends as soon as `min_p` or the bound on the weight lets it.

   What is proved.
     1. Each plain sampler, and `spec_build_trunc_dist`, keeps a cut of the ranking
        (`sampleFullVocab_cut`, `sampleFullVocab_uncut`, `sampleTop_law`,
        `specBuildTruncDist_cut`). They differ in the front of the ranking that is
        cut and in the sum the bound is a share of.
     2. When two such cuts are one (`cuts_eq_iff`, `cut_front_iff`).
     3. The laws agree exactly then (`plain_law_iff`). `top_p` of the `top_k` largest
        is less than `top_p` of all, and there they do not (`plain_law_differs`). -/
namespace Ds4.Sampling
open MeasureTheory Set

/-! ## Where a cut ends -/

/-- The weight of the `j` first entries. -/
def heaviest (l : List (ℕ × ℝ)) (j : ℕ) : ℝ := ((l.take j).map Prod.snd).sum

/-- A cut may end behind `j` entries: there are no more, `m` lets the next one not through, or the
    entries hold `t`. -/
def EndsAt (t m acc : ℝ) (l : List (ℕ × ℝ)) (j : ℕ) : Prop :=
  l.length = j ∨ (∃ c, l[j]? = some c ∧ c.2 < m) ∨ t ≤ acc + heaviest l j

theorem nucleus_scale {sum : ℝ} (hsum : 0 < sum) (topP minProb : ℝ) : ∀ (l : List (ℕ × ℝ)) (first : Bool) (acc : ℝ),
    nucleus sum topP minProb first acc l = nucleus 1 (topP * sum) (minProb * sum) first acc l
  | [], first, acc => by rw [nucleus, nucleus]
  | c :: l, first, acc => by
    rw [nucleus, nucleus, nucleus_scale hsum topP minProb l]
    simp only [div_lt_iff₀ hsum, le_div_iff₀ hsum, div_one]

theorem endsAt_cons {t m acc : ℝ} {c : ℕ × ℝ} {l : List (ℕ × ℝ)} {j : ℕ} :
    EndsAt t m acc (c :: l) (j + 1) ↔ EndsAt t m (acc + c.2) l j := by
  simp only [EndsAt, heaviest, List.length_cons, Nat.add_right_cancel_iff, List.getElem?_cons_succ, List.take_succ_cons,
    List.map_cons, List.sum_cons, add_assoc]

/-- Behind the first entry a cut ends as soon as it may. -/
theorem nucleus_least {t m : ℝ} : ∀ (l : List (ℕ × ℝ)) (acc : ℝ), acc < t →
    EndsAt t m acc l (nucleus 1 t m false acc l).1.length ∧
      ∀ j < (nucleus 1 t m false acc l).1.length, ¬EndsAt t m acc l j
  | [], acc, _ => by
    rw [nucleus]
    exact ⟨Or.inl rfl, fun j hj => absurd hj (Nat.not_lt_zero j)⟩
  | c :: l, acc, hacc => by
    have hzero : ¬c.2 < m → ¬EndsAt t m acc (c :: l) 0 := by
      rintro hm (h | ⟨d, hd, hlt⟩ | h)
      · cases h
      · obtain rfl := Option.some.inj hd
        exact hm hlt
      · simp only [heaviest, List.take_zero, List.map_nil, List.sum_nil, add_zero] at h
        exact absurd hacc (not_lt.mpr h)
    rw [nucleus]
    simp only [Bool.false_eq_true, not_false_eq_true, true_and, div_one]
    split_ifs with hm ht
    · exact ⟨Or.inr (Or.inl ⟨c, rfl, hm⟩), fun j hj => absurd hj (Nat.not_lt_zero j)⟩
    · refine ⟨Or.inr (Or.inr (by simpa [heaviest] using ht)), fun j hj => ?_⟩
      obtain rfl : j = 0 := by simpa using hj
      exact hzero hm
    · obtain ⟨hend, hleast⟩ := nucleus_least l (acc + c.2) (not_le.mp ht)
      refine ⟨endsAt_cons.mpr hend, fun j hj => ?_⟩
      cases j with
      | zero => exact hzero hm
      | succ j => exact fun h => hleast j (by simpa using hj) (endsAt_cons.mp h)

/-- The cut of a whole list keeps one entry at least, and then ends as soon as it may. -/
structure IsCut (t m : ℝ) (l : List (ℕ × ℝ)) (n : ℕ) : Prop where
  pos : 0 < n
  ends : EndsAt t m 0 l n
  least : ∀ j, 0 < j → j < n → ¬EndsAt t m 0 l j

theorem nucleus_isCut {t m : ℝ} {l : List (ℕ × ℝ)} (hl : l ≠ []) :
    IsCut t m l (nucleus 1 t m true 0 l).1.length := by
  obtain ⟨c, l, rfl⟩ := List.exists_cons_of_ne_nil hl
  rw [nucleus]
  simp only [not_true_eq_false, false_and, if_false, div_one]
  split_ifs with ht
  · refine ⟨Nat.one_pos, Or.inr (Or.inr (by simpa [heaviest] using ht)), fun j hj hj' => ?_⟩
    simp at hj'
    omega
  · obtain ⟨hend, hleast⟩ := nucleus_least (m := m) l (0 + c.2) (not_le.mp ht)
    refine ⟨Nat.succ_pos _, endsAt_cons.mpr hend, fun j hj hj' h => ?_⟩
    obtain ⟨j, rfl⟩ := Nat.exists_eq_succ_of_ne_zero hj.ne'
    exact hleast j (by simpa using hj') (endsAt_cons.mp h)

/-- What is cut off is decided by the place alone. -/
theorem nucleus_eq_take {sum topP minProb : ℝ} (l : List (ℕ × ℝ)) (first : Bool) (acc : ℝ) :
    (nucleus sum topP minProb first acc l).1 = l.take (nucleus sum topP minProb first acc l).1.length :=
  List.prefix_iff_eq_take.mp (nucleus_isPrefix sum topP minProb l first acc).1

theorem IsCut.unique {t m : ℝ} {l : List (ℕ × ℝ)} {n n' : ℕ} (h : IsCut t m l n) (h' : IsCut t m l n') : n = n' := by
  rcases lt_trichotomy n n' with hlt | heq | hlt
  · exact absurd h.ends (h'.least n h.pos hlt)
  · exact heq
  · exact absurd h'.ends (h.least n' h'.pos hlt)

/-- No entry behind the first up to the one at `j` is cut by `m`. -/
def Passes (m : ℝ) (l : List (ℕ × ℝ)) (j : ℕ) : Prop := ∀ i c, 0 < i → i ≤ j → l[i]? = some c → m ≤ c.2

theorem heaviest_mono {l : List (ℕ × ℝ)} (hpos : ∀ c ∈ l, 0 < c.2) {i j : ℕ} (hij : i ≤ j) :
    heaviest l i ≤ heaviest l j := by
  obtain ⟨k, rfl⟩ := Nat.exists_eq_add_of_le hij
  rw [heaviest, heaviest, List.take_add, List.map_append, List.sum_append]
  refine le_add_of_nonneg_right (List.sum_nonneg fun x hx => ?_)
  obtain ⟨c, hc, rfl⟩ := List.mem_map.mp hx
  exact (hpos c (List.mem_of_mem_drop (List.mem_of_mem_take hc))).le

theorem IsCut.le_length {t m : ℝ} {l : List (ℕ × ℝ)} (hl : l ≠ []) {n : ℕ} (h : IsCut t m l n) : n ≤ l.length :=
  not_lt.mp fun hlt => h.least l.length (List.length_pos_iff.mpr hl) hlt (Or.inl rfl)

theorem EndsAt.mono {t t' m acc : ℝ} (ht : t ≤ t') {l : List (ℕ × ℝ)} {j : ℕ} (h : EndsAt t' m acc l j) :
    EndsAt t m acc l j := by
  rcases h with h | h | h
  · exact Or.inl h
  · exact Or.inr (Or.inl h)
  · exact Or.inr (Or.inr (ht.trans h))

/-- Behind a place that is passed a cut ends only where the list does or the bound is reached. -/
theorem EndsAt.of_passes {t m : ℝ} {l : List (ℕ × ℝ)} {n j : ℕ} (h : EndsAt t m 0 l n) (hn : 0 < n) (hnj : n ≤ j)
    (hj : j < l.length) (hpass : Passes m l j) : t ≤ heaviest l n := by
  rcases h with h | ⟨c, hc, hlt⟩ | h
  · omega
  · exact absurd hlt (not_lt.mpr (hpass n c hn hnj hc))
  · rwa [zero_add] at h

/-- Two bounds cut one list alike: where the smaller ends a cut short of the list, the larger is
    reached as well. -/
theorem cuts_eq_iff {t t' m : ℝ} (ht : t ≤ t') {l : List (ℕ × ℝ)} (hl : l ≠ []) (hpos : ∀ c ∈ l, 0 < c.2) {n n' : ℕ}
    (h : IsCut t m l n) (h' : IsCut t' m l n') :
    n = n' ↔ ∀ j, 0 < j → j < l.length → Passes m l j → t ≤ heaviest l j → t' ≤ heaviest l j := by
  constructor
  · rintro rfl j hj hjl hpass hreach
    have hnj : n ≤ j := not_lt.mp fun hlt => h.least j hj hlt (Or.inr (Or.inr (by rwa [zero_add])))
    exact (h'.ends.of_passes h.pos hnj hjl hpass).trans (heaviest_mono hpos hnj)
  · intro hall
    refine IsCut.unique (t := t') ⟨h.pos, ?_, fun j hj hjn hend => h.least j hj hjn (hend.mono ht)⟩ h'
    by_cases hend : l.length = n
    · exact Or.inl hend
    by_cases hcut : ∃ c, l[n]? = some c ∧ c.2 < m
    · exact Or.inr (Or.inl hcut)
    refine Or.inr (Or.inr ?_)
    have hpass : Passes m l n := by
      intro i c hi hin hc
      by_contra hlt
      rcases hin.lt_or_eq with hin | rfl
      · exact h.least i hi hin (Or.inr (Or.inl ⟨c, hc, not_le.mp hlt⟩))
      · exact hcut ⟨c, hc, not_le.mp hlt⟩
    have hlt : n < l.length := lt_of_le_of_ne (h.le_length hl) (Ne.symm hend)
    rw [zero_add]
    exact hall n h.pos hlt hpass (h.ends.of_passes h.pos le_rfl hlt hpass)

/-- The front of a list is cut as the list is, where the cut ends within it. -/
theorem cut_front_iff {t m : ℝ} {l : List (ℕ × ℝ)} (hpos : ∀ c ∈ l, 0 < c.2) {cap : ℕ} (hcap : 0 < cap)
    {n n' : ℕ} (h : IsCut t m l n) (h' : IsCut t m (l.take cap) n') :
    n = n' ↔ (cap < l.length → Passes m l cap → t ≤ heaviest l cap) := by
  rcases Nat.lt_or_ge cap l.length with hlt | hge
  swap
  · rw [List.take_of_length_le hge] at h'
    exact iff_of_true (h.unique h') fun hlt => absurd hlt (not_lt.mpr hge)
  have hlen : (l.take cap).length = cap := List.length_take_of_le hlt.le
  have hfront : ∀ j < cap, EndsAt t m 0 (l.take cap) j ↔ EndsAt t m 0 l j := by
    intro j hj
    have hj1 : ¬cap = j := hj.ne'
    have hj2 : ¬l.length = j := by omega
    simp only [EndsAt, hlen, hj1, hj2, false_or, heaviest, List.getElem?_take, if_pos hj, List.take_take,
      min_eq_left hj.le]
  have hn' : n' ≤ cap := by
    have := h'.le_length (by rw [← List.length_pos_iff, hlen]; exact hcap)
    rwa [hlen] at this
  constructor
  · rintro rfl - hpass
    exact (h.ends.of_passes h.pos hn' hlt hpass).trans (heaviest_mono hpos hn')
  · intro hall
    have hn : n ≤ cap := by
      by_contra hgt
      have hend : ∀ i, 0 < i → i ≤ cap → ¬EndsAt t m 0 l i := fun i hi hic => h.least i hi (by omega)
      refine hend cap hcap le_rfl (Or.inr (Or.inr ?_))
      rw [zero_add]
      refine hall hlt fun i c hi hic hc => ?_
      by_contra hlt
      exact hend i hi hic (Or.inr (Or.inl ⟨c, hc, not_le.mp hlt⟩))
    refine IsCut.unique (l := l.take cap) ⟨h.pos, ?_, fun j hj hjn => ?_⟩ h'
    · rcases hn.lt_or_eq with hn | rfl
      · exact (hfront n hn).mpr h.ends
      · exact Or.inl hlen
    · rw [hfront j (by omega)]
      exact h.least j hj hjn

/-! ## The law of a draw -/

/-- One number that is still to be drawn. -/
def draw1 (u : ℝ) : ℝ × ℝ := (u, 0)

/-- A cut list, as a distribution. -/
noncomputable def normalised (l : List (ℕ × ℝ)) : List (ℕ × ℝ) :=
  l.map fun c => (c.1, c.2 * (1 / (l.map Prod.snd).sum))

theorem pick_scaled {k : ℝ} (hk : 0 < k) : ∀ (l : List (ℕ × ℝ)) (r : ℝ) (last : ℕ),
    pick r last l = pick (r * k) last (l.map fun c => (c.1, c.2 * k))
  | [], r, last => rfl
  | c :: l, r, last => by
    have hstep : r * k - c.2 * k ≤ 0 ↔ r - c.2 ≤ 0 := by
      rw [← sub_mul]
      exact ⟨fun h => nonpos_of_mul_nonpos_left h hk, fun h => mul_nonpos_of_nonpos_of_nonneg h hk.le⟩
    rw [List.map_cons, pick, pick, pick_scaled hk l (r - c.2) c.1, sub_mul]
    simp only [hstep]

section
variable {l : List (ℕ × ℝ)}

theorem sum_pos (hpos : ∀ c ∈ l, 0 < c.2) (hl : l ≠ []) : 0 < (l.map Prod.snd).sum :=
  List.sum_pos _ (fun x hx => by
    obtain ⟨c, hc, rfl⟩ := List.mem_map.mp hx
    exact hpos c hc) (by simpa using hl)

theorem normalised_isDist (hpos : ∀ c ∈ l, 0 < c.2) (hnodup : (l.map Prod.fst).Nodup) (hl : l ≠ []) :
    IsDist (normalised l) :=
  isDist_scaled hpos hnodup (sum_pos hpos hl)

theorem normalised_ids : (normalised l).map Prod.fst = l.map Prod.fst := by
  rw [normalised, List.map_map]
  rfl

/-- The law of a draw from a cut list. -/
theorem drawFrom_law (hpos : ∀ c ∈ l, 0 < c.2) (hnodup : (l.map Prod.fst).Nodup) (hl : l ≠ []) (x : ℤ) :
    uniform.real {u | ((drawFrom draw1 (l, (l.map Prod.snd).sum) u).1 : ℤ) = x} = specDistProb (normalised l) x := by
  have hsum := sum_pos hpos hl
  rcases lt_or_ge x 0 with hx | hx
  · have hset : {u | ((drawFrom draw1 (l, (l.map Prod.snd).sum) u).1 : ℤ) = x} = ∅ := by
      ext u
      simp only [mem_ofPred_eq, mem_empty_iff_false, iff_false]
      omega
    rw [hset, measureReal_empty, specDistProb_negative _ hx]
  · obtain ⟨n, rfl⟩ := Int.eq_ofNat_of_zero_le hx
    rw [← ((normalised_isDist hpos hnodup hl).law n).2]
    have hset : {u | ((drawFrom draw1 (l, (l.map Prod.snd).sum) u).1 : ℤ) = n} = {u | pick u 0 (normalised l) = n} := by
      ext u
      simp only [mem_ofPred_eq, drawFrom, draw1, Nat.cast_inj]
      rw [pick_scaled (one_div_pos.mpr hsum) l, mul_assoc, mul_one_div_cancel hsum.ne', mul_one, normalised]
    rw [hset]

theorem specDistProb_perm {l' : List (ℕ × ℝ)} (hnodup : (l.map Prod.fst).Nodup) (h : l.Perm l') (x : ℤ) :
    specDistProb l x = specDistProb l' x := by
  rcases lt_or_ge x 0 with hx | hx
  · rw [specDistProb_negative _ hx, specDistProb_negative _ hx]
  obtain ⟨n, rfl⟩ := Int.eq_ofNat_of_zero_le hx
  by_cases hn : n ∈ l.map Prod.fst
  · obtain ⟨c, hc, rfl⟩ := List.mem_map.mp hn
    rw [specDistProb_of_mem hnodup hc, specDistProb_of_mem ((h.map Prod.fst).nodup_iff.mp hnodup) (h.mem_iff.mp hc)]
  · rw [specDistProb_of_notMem hn, specDistProb_of_notMem fun h' => hn ((h.map Prod.fst).mem_iff.mpr h')]

theorem normalised_perm {l' : List (ℕ × ℝ)} (h : l.Perm l') : (normalised l).Perm (normalised l') := by
  rw [normalised, normalised, (h.map Prod.snd).sum_eq]
  exact h.map _

/-- The laws of two fronts of a list tell their lengths apart. -/
theorem normalised_take_iff (hpos : ∀ c ∈ l, 0 < c.2) (hnodup : (l.map Prod.fst).Nodup) {n n' : ℕ} (hn : 0 < n)
    (hn' : 0 < n') (hnl : n ≤ l.length) (hnl' : n' ≤ l.length) :
    (∀ x : ℤ, specDistProb (normalised (l.take n)) x = specDistProb (normalised (l.take n')) x) ↔ n = n' := by
  -- the token behind the shorter front
  have hlt : ∀ {i j : ℕ}, 0 < j → i < j → j ≤ l.length →
      ∃ x : ℕ, specDistProb (normalised (l.take i)) x = 0 ∧ 0 < specDistProb (normalised (l.take j)) x := by
    intro i j hj hij hjl
    have hi : i < l.length := by omega
    have hmem : l[i] ∈ l.take j := by
      rw [List.mem_take_iff_getElem]
      exact ⟨i, by omega, rfl⟩
    have htake : (l.take j).Sublist l := List.take_sublist j l
    refine ⟨l[i].1, specDistProb_of_notMem ?_, ?_⟩
    · rw [normalised_ids, List.map_take]
      intro hmem
      obtain ⟨k, hk, heq⟩ := List.mem_take_iff_getElem.mp hmem
      have hkl : k < (l.map Prod.fst).length := by omega
      have hil : i < (l.map Prod.fst).length := by simpa using hi
      have hids : (l.map Prod.fst)[k] = (l.map Prod.fst)[i] := by simpa using heq
      have := (List.Nodup.getElem_inj_iff hnodup).mp hids
      omega
    · have hdist := normalised_isDist (fun c hc => hpos c (htake.subset hc))
        ((htake.map Prod.fst).nodup hnodup) (List.ne_nil_of_mem hmem)
      refine hdist.prob_pos ?_
      rw [normalised_ids]
      exact List.mem_map_of_mem hmem
  constructor
  · intro hall
    rcases lt_trichotomy n n' with h | h | h
    · obtain ⟨x, hzero, hpos'⟩ := hlt hn' h hnl'
      exact absurd (hall x) (by rw [hzero]; exact hpos'.ne)
    · exact h
    · obtain ⟨x, hzero, hpos'⟩ := hlt hn h hnl
      exact absurd (hall x) (by rw [hzero]; exact hpos'.ne')
  · rintro rfl x
    rfl

end

/-- With the whole weight as its bound a cut is decided by `m` alone. -/
theorem filter_eq_take {m : ℝ} {l : List (ℕ × ℝ)} (hsorted : l.Pairwise fun a b => b.2 ≤ a.2) (hpos : ∀ c ∈ l, 0 < c.2)
    (hhead : ∀ c, l[0]? = some c → m ≤ c.2) {n : ℕ} (h : IsCut (1 * heaviest l l.length) m l n) :
    (l.filter fun c => ¬c.2 < m) = l.take n := by
  have hkept : ∀ c ∈ l.take n, ¬c.2 < m := by
    intro c hc hlt
    obtain ⟨i, hi, rfl⟩ := List.mem_take_iff_getElem.mp hc
    have hget : l[i]? = some l[i] := List.getElem?_eq_getElem _
    rcases Nat.eq_zero_or_pos i with rfl | hpos
    · exact absurd hlt (not_lt.mpr (hhead _ hget))
    · exact h.least i hpos (by omega) (Or.inr (Or.inl ⟨_, hget, hlt⟩))
  have hdrop : ∀ c ∈ l.drop n, c.2 < m := by
    rcases h.ends with hlen | ⟨d, hd, hlt⟩ | hreach
    · intro c hc
      rw [List.drop_of_length_le hlen.le] at hc
      cases hc
    · intro c hc
      have hsub : (l.drop n).Pairwise fun a b => b.2 ≤ a.2 := hsorted.sublist (List.drop_sublist n l)
      obtain ⟨hn, rfl⟩ := List.getElem?_eq_some_iff.mp hd
      rw [List.drop_eq_getElem_cons hn] at hc hsub
      rcases List.mem_cons.mp hc with rfl | hc
      · exact hlt
      · exact ((List.pairwise_cons.mp hsub).1 c hc).trans_lt hlt
    · intro c hc
      have hsum : heaviest l l.length = heaviest l n + ((l.drop n).map Prod.snd).sum := by
        rw [heaviest, heaviest, List.take_length, ← List.sum_append, ← List.map_append, List.take_append_drop]
      have := sum_pos (fun d hd => hpos d (List.mem_of_mem_drop hd)) (List.ne_nil_of_mem hc)
      rw [one_mul, zero_add] at hreach
      linarith
  conv_lhs => rw [← List.take_append_drop n l]
  rw [List.filter_append, List.filter_eq_self.mpr (by simpa using hkept),
    List.filter_eq_nil_iff.mpr (by simpa using hdrop), List.append_nil]

/-- Short of its last entry the loop without a list is a draw from one. -/
theorem uncut_eq_pick (best : ℕ) : ∀ (l : List (ℕ × ℝ)) (r : ℝ) (last : ℕ), l ≠ [] → r ≤ (l.map Prod.snd).sum →
    sampleUncut.uncut best r l = pick r last l
  | [], _, _, hl, _ => absurd rfl hl
  | c :: l, r, last, _, hr => by
    rw [sampleUncut.uncut, pick]
    split_ifs with h
    · rfl
    · rw [List.map_cons, List.sum_cons] at hr
      refine uncut_eq_pick best l (r - c.2) c.1 ?_ (by linarith)
      rintro rfl
      simp at hr
      exact h (by linarith)

theorem uniform_congr {s t : Set ℝ} (h : ∀ u ∈ Ico (0 : ℝ) 1, u ∈ s ↔ u ∈ t) : uniform.real s = uniform.real t := by
  refine measureReal_congr (Filter.eventuallyEq_set.mpr ?_)
  rw [uniform, ae_restrict_iff' measurableSet_Ico]
  exact ae_of_all _ h

/-! ## The ranking of a row -/

/-- The weights of a row, in descending order. -/
noncomputable def ranked (logits : List (Logit ℝ)) (temperature : ℝ) : List (ℕ × ℝ) :=
  ranking Prod.snd (weights Real.exp temperature (maxLogit logits).1 logits)

theorem maxLogit_ranking (l : List (ℕ × ℝ)) :
    (l.foldl (fun (b : ℝ × ℕ) c => if b.1 < c.2 then (c.2, c.1) else b) (negInf, 0) = (negInf, 0) ∧
        ∀ c ∈ l, c.2 ≤ negInf) ∨
      ∃ b tail, l.foldl (fun (b : ℝ × ℕ) c => if b.1 < c.2 then (c.2, c.1) else b) (negInf, 0) = b ∧
        ranking Prod.snd l = (b.2, b.1) :: tail ∧ negInf < b.1 := by
  induction l using List.reverseRecOn with
  | nil => exact Or.inl ⟨rfl, by simp⟩
  | append_singleton l c ih =>
    rw [List.foldl_append, List.foldl_cons, List.foldl_nil, ranking_concat]
    rcases ih with ⟨hfold, hle⟩ | ⟨b, tail, hfold, hrank, hb⟩
    · rw [hfold]
      by_cases hc : negInf < c.2
      · right
        refine ⟨(c.2, c.1), ranking Prod.snd l, by rw [if_pos hc], ?_, hc⟩
        cases hrank : ranking Prod.snd l with
        | nil => rfl
        | cons d tail =>
          have hd : d ∈ l := (ranking_perm l).mem_iff.mp (by rw [hrank]; exact List.mem_cons_self)
          rw [rankLast, List.orderedInsert_cons, if_pos ((hle d hd).trans_lt hc)]
      · left
        refine ⟨by rw [if_neg hc], fun d hd => ?_⟩
        rcases List.mem_append.mp hd with hd | hd
        · exact hle d hd
        · rw [List.mem_singleton.mp hd]
          exact not_lt.mp hc
    · right
      rw [hfold, hrank, rankLast, List.orderedInsert_cons]
      by_cases hc : b.1 < c.2
      · exact ⟨(c.2, c.1), (b.2, b.1) :: tail, by rw [if_pos hc], by rw [if_pos hc], hb.trans hc⟩
      · exact ⟨b, rankLast Prod.snd c tail, by rw [if_neg hc], by rw [if_neg hc]; rfl, hb⟩

section
variable {logits : List (Logit ℝ)} {temperature : ℝ}

theorem weights_eq (m : ℝ) : weights Real.exp temperature m logits =
    (finites logits).map fun c => (c.1, Real.exp ((c.2 - m) / temperature)) := by
  rw [weights, candidates, List.map_map]
  rfl

theorem ranking_finites (ht : 0 < temperature) (m : ℝ) : ranking Prod.snd (weights Real.exp temperature m logits) =
    (ranking Prod.snd (finites logits)).map fun c => (c.1, Real.exp ((c.2 - m) / temperature)) := by
  rw [weights_eq]
  refine ranking_map fun a _ b _ => ?_
  rw [Real.exp_le_exp, div_le_div_iff_of_pos_right ht, sub_le_sub_iff_right]

theorem ranked_pos : ∀ c ∈ ranked logits temperature, 0 < c.2 := by
  intro c hc
  have hc := (ranking_perm _).mem_iff.mp hc
  rw [weights_eq] at hc
  obtain ⟨d, -, rfl⟩ := List.mem_map.mp hc
  exact Real.exp_pos _

theorem ranked_nodup : ((ranked logits temperature).map Prod.fst).Nodup := by
  refine (((ranking_perm _).map Prod.fst).nodup_iff).mpr ?_
  rw [weights_eq, List.map_map]
  exact finites_nodup logits

theorem ranked_sorted : (ranked logits temperature).Pairwise fun a b => b.2 ≤ a.2 := pairwise_ranking _

theorem ranked_length : (ranked logits temperature).length = (finites logits).length := by
  rw [ranked, (ranking_perm _).length_eq, weights_eq, List.length_map]

theorem ranked_sum : heaviest (ranked logits temperature) (ranked logits temperature).length =
    ((weights Real.exp temperature (maxLogit logits).1 logits).map Prod.snd).sum := by
  rw [heaviest, List.take_length, ranked]
  exact ((ranking_perm _).map Prod.snd).sum_eq

/-- A row with an entry above `DS4_NEG_INF` has its largest at the head, with the weight 1. -/
theorem ranked_head (ht : 0 < temperature) (hfin : ∃ c ∈ finites logits, negInf < c.2) :
    ∃ tail, ranking Prod.snd (finites logits) = ((maxLogit logits).2, (maxLogit logits).1) :: tail ∧
      ranked logits temperature = ((maxLogit logits).2, 1) ::
        tail.map fun c => (c.1, Real.exp ((c.2 - (maxLogit logits).1) / temperature)) := by
  obtain ⟨c, hc, hlt⟩ := hfin
  rcases maxLogit_ranking (finites logits) with ⟨-, hle⟩ | ⟨b, tail, hfold, hrank, -⟩
  · exact absurd hlt (not_lt.mpr (hle c hc))
  · obtain rfl : maxLogit logits = b := hfold
    refine ⟨tail, hrank, ?_⟩
    rw [ranked, ranking_finites ht, hrank, List.map_cons, sub_self, zero_div, Real.exp_zero]

/-! ## What each sampler draws from -/

theorem nucleus_cut {sum : ℝ} (hsum : 0 < sum) {l : List (ℕ × ℝ)} (hl : l ≠ []) (topP minP : ℝ) :
    ∃ n, IsCut (topP * sum) minP l n ∧ n ≤ l.length ∧
      nucleus sum topP (1 / sum * minP) true 0 l = (l.take n, ((l.take n).map Prod.snd).sum) := by
  refine ⟨(nucleus sum topP (1 / sum * minP) true 0 l).1.length, ?_, ?_, ?_⟩
  · have hcut := nucleus_isCut (t := topP * sum) (m := 1 / sum * minP * sum) hl
    rwa [← nucleus_scale hsum, show 1 / sum * minP * sum = minP by field_simp] at hcut
  · exact (nucleus_isPrefix sum topP (1 / sum * minP) l true 0).1.length_le
  · rw [← nucleus_eq_take]
    refine Prod.ext rfl ?_
    rw [(nucleus_isPrefix sum topP (1 / sum * minP) l true 0).2, zero_add]

theorem front_law (n : ℕ) (hn : 0 < n) (hne : ranked logits temperature ≠ []) (x : ℤ) :
    uniform.real {u | ((drawFrom draw1 ((ranked logits temperature).take n,
      (((ranked logits temperature).take n).map Prod.snd).sum) u).1 : ℤ) = x} =
        specDistProb (normalised ((ranked logits temperature).take n)) x := by
  have hsub := List.take_sublist n (ranked logits temperature)
  refine drawFrom_law (fun c hc => ranked_pos c (hsub.subset hc)) ((hsub.map Prod.fst).nodup ranked_nodup) ?_ x
  rw [ne_eq, List.take_eq_nil_iff, not_or]
  exact ⟨hn.ne', hne⟩

theorem minProb_of_nonneg {minP : ℝ} (hm : 0 ≤ minP) (sum : ℝ) (l : List (ℕ × ℝ)) :
    minProb minP sum l = (l.head?.map Prod.snd).getD 0 / sum * minP := by
  rw [minProb]
  rcases hm.eq_or_lt with rfl | hlt
  · rw [if_neg (lt_irrefl _)]
  · rw [if_pos hlt]

/-- The shared loop draws from a cut of the `topK` largest, by their own sum. -/
theorem sampleTop_law (ht : 0 < temperature) (hfin : ∃ c ∈ finites logits, negInf < c.2) {topK : ℕ} (hk : 0 < topK)
    (topP : ℝ) {minP : ℝ} (hm : 0 ≤ minP) (argmax : ℤ) :
    ∃ n, IsCut (topP * heaviest (ranked logits temperature) topK) minP ((ranked logits temperature).take topK) n ∧
      n ≤ ((ranked logits temperature).take topK).length ∧
      ∀ x, uniform.real {u | (sampleTop Real.exp draw1 (finites logits) argmax temperature topK topP minP u).1 = x} =
        specDistProb (normalised ((ranked logits temperature).take n)) x := by
  obtain ⟨tail, hrank, hhead⟩ := ranked_head ht hfin
  obtain ⟨k, rfl⟩ := Nat.exists_eq_succ_of_ne_zero hk.ne'
  have hne : (ranked logits temperature).take (k + 1) ≠ [] := by simp [hhead]
  have hsum : 0 < heaviest (ranked logits temperature) (k + 1) :=
    sum_pos (fun c hc => ranked_pos c (List.mem_of_mem_take hc)) hne
  obtain ⟨n, hcut, hn, hnuc⟩ := nucleus_cut hsum hne topP minP
  refine ⟨n, hcut, hn, fun x => ?_⟩
  have htake : ((ranked logits temperature).take (k + 1)).take n = (ranked logits temperature).take n := by
    rw [List.take_take, min_eq_left (hn.trans (List.length_take_le _ _))]
  rw [htake] at hnuc
  have hprobs : ((ranking Prod.snd (finites logits)).take (k + 1)).map
      (fun d => (d.1, Real.exp ((d.2 - (maxLogit logits).1) / temperature))) =
        (ranked logits temperature).take (k + 1) := by
    rw [List.map_take, ranked, ranking_finites ht]
  have hmin : minProb minP (heaviest (ranked logits temperature) (k + 1)) ((ranked logits temperature).take (k + 1)) =
      1 / heaviest (ranked logits temperature) (k + 1) * minP := by
    rw [minProb_of_nonneg hm, hhead]
    rfl
  have hstep : ∀ u, sampleTop Real.exp draw1 (finites logits) argmax temperature (k + 1) topP minP u =
      (((drawFrom draw1 ((ranked logits temperature).take n,
        (((ranked logits temperature).take n).map Prod.snd).sum) u).1 : ℤ),
        (drawFrom draw1 ((ranked logits temperature).take n,
        (((ranked logits temperature).take n).map Prod.snd).sum) u).2) := by
    intro u
    rw [hrank, List.take_succ_cons] at hprobs
    have hkept : (ranked logits temperature).take n ≠ [] := by simp [hhead, hcut.pos.ne']
    rw [heaviest] at hsum hmin hnuc
    simp only [sampleTop, foldl_insertBounded_take, List.reverse_reverse, hrank, List.take_succ_cons, hprobs,
      not_le.mpr hsum, if_false, hmin, hnuc, List.isEmpty_iff, hkept]
  simp only [hstep]
  exact front_law n hcut.pos (by simp [hhead]) x

/-- The full sort ranks a row as the bounded list does. -/
theorem exact_sorted (ht : 0 < temperature) :
    ((candidates Real.exp temperature (maxLogit logits).1 logits).insertionSort fun a b => b.logit ≤ a.logit).map
      (fun c => (c.id, c.prob)) = ranked logits temperature := by
  have hmap : ranking Prod.snd ((candidates Real.exp temperature (maxLogit logits).1 logits).map
      fun c => (c.id, c.prob)) = (ranking Candidate.logit (candidates Real.exp temperature (maxLogit logits).1 logits)).map
        fun c => (c.id, c.prob) := by
    refine ranking_map fun a ha b hb => ?_
    obtain ⟨c, -, rfl⟩ := List.mem_map.mp ha
    obtain ⟨d, -, rfl⟩ := List.mem_map.mp hb
    rw [Real.exp_le_exp, div_le_div_iff_of_pos_right ht, sub_le_sub_iff_right]
  exact hmap.symm

theorem finites_ne_nil (hfin : ∃ c ∈ finites logits, negInf < c.2) : finites logits ≠ [] := by
  obtain ⟨c, hc, -⟩ := hfin
  exact List.ne_nil_of_mem hc

/-- With a bound below 1 the bounded sampler draws from a cut of the whole ranking. -/
theorem sampleFullVocab_cut (ht : 0 < temperature) (hfin : ∃ c ∈ finites logits, negInf < c.2) {topP : ℝ}
    (htop : 0 < topP) (htop1 : topP < 1) {minP : ℝ} (hm : 0 ≤ minP) :
    ∃ n, IsCut (topP * heaviest (ranked logits temperature) (ranked logits temperature).length) minP
        (ranked logits temperature) n ∧ n ≤ (ranked logits temperature).length ∧
      ∀ u, sampleFullVocab Real.exp draw1 logits temperature topP minP u =
        drawFrom draw1 ((ranked logits temperature).take n,
          (((ranked logits temperature).take n).map Prod.snd).sum) u := by
  obtain ⟨tail, -, hhead⟩ := ranked_head ht hfin
  have hexact : ((candidates Real.exp temperature (maxLogit logits).1 logits).insertionSort
      fun a b => b.logit ≤ a.logit).map (fun c => (c.id, c.prob)) = ranked logits temperature := exact_sorted ht
  have hprobs : ((candidates Real.exp temperature (maxLogit logits).1 logits).map (·.prob)).sum =
      heaviest (ranked logits temperature) (ranked logits temperature).length := by
    rw [ranked_sum]
    simp [weights, Function.comp_def]
  have hweights : (((candidates Real.exp temperature (maxLogit logits).1 logits).map fun c => (c.id, c.prob)).map
      Prod.snd).sum = heaviest (ranked logits temperature) (ranked logits temperature).length := ranked_sum.symm
  have htopk : ((((candidates Real.exp temperature (maxLogit logits).1 logits).map fun c => (c.id, c.prob)).foldl
      (insertBounded Prod.snd sampleTopk) []).reverse) = (ranked logits temperature).take sampleTopk := by
    rw [foldl_insertBounded_take, List.reverse_reverse]
    rfl
  have hpos : ∀ c ∈ ranked logits temperature, 0 < c.2 := ranked_pos
  generalize ranked logits temperature = l at *
  have hne : l ≠ [] := by simp [hhead]
  have hsum : 0 < heaviest l l.length := by
    rw [heaviest, List.take_length]
    exact sum_pos hpos hne
  generalize heaviest l l.length = sum at *
  obtain ⟨n, hcut, hn, hnuc⟩ := nucleus_cut hsum hne topP minP
  refine ⟨n, hcut, hn, fun u => ?_⟩
  have hkept : l.take n ≠ [] := by simp [hhead, hcut.pos.ne']
  have hfront : l.take sampleTopk ≠ [] := by simp [hhead, sampleTopk]
  have hmin : minProb minP sum l = 1 / sum * minP := by
    rw [minProb_of_nonneg hm, hhead]
    rfl
  have hmin' : minProb minP sum (l.take sampleTopk) = 1 / sum * minP := by
    rw [← hmin, ← minProb_front minP sum hfront (l.drop sampleTopk), List.take_append_drop]
  have hsplit : ¬((nucleus sum topP (1 / sum * minP) true 0 (l.take sampleTopk)).1.length = (l.take sampleTopk).length ∧
      (nucleus sum topP (1 / sum * minP) true 0 (l.take sampleTopk)).2 / sum < topP) →
      nucleus sum topP (1 / sum * minP) true 0 (l.take sampleTopk ++ l.drop sampleTopk) =
        nucleus sum topP (1 / sum * minP) true 0 (l.take sampleTopk) :=
    nucleus_front (l.drop sampleTopk) (l.take sampleTopk) true 0 (by simpa using htop)
  rw [List.take_append_drop, hnuc] at hsplit
  simp only [sampleFullVocab, List.isEmpty_iff, finites_ne_nil hfin, if_false, not_le.mpr htop1, hweights, htopk,
    not_le.mpr hsum, hfront, or_self, hmin']
  by_cases hfall : (nucleus sum topP (1 / sum * minP) true 0 (l.take sampleTopk)).1.length =
      (l.take sampleTopk).length ∧ (nucleus sum topP (1 / sum * minP) true 0 (l.take sampleTopk)).2 / sum < topP
  · -- the full sort decides
    rw [if_pos hfall]
    simp only [sampleFullVocabExact, hprobs, not_le.mpr hsum, if_false, hexact, hmin, hnuc, List.isEmpty_iff, hkept]
  · rw [if_neg hfall, ← hsplit hfall]
    simp only [hkept, if_false]

/-- Without a bound the sampler draws from all that `minP` lets through. -/
theorem sampleFullVocab_uncut (ht : 0 < temperature) (hfin : ∃ c ∈ finites logits, negInf < c.2) {minP : ℝ}
    (hm : 0 ≤ minP) :
    ∃ n, IsCut (1 * heaviest (ranked logits temperature) (ranked logits temperature).length) minP
        (ranked logits temperature) n ∧ n ≤ (ranked logits temperature).length ∧
      ∀ x : ℤ, uniform.real {u | ((sampleFullVocab Real.exp draw1 logits temperature 1 minP u).1 : ℤ) = x} =
        specDistProb (normalised ((ranked logits temperature).take n)) x := by
  obtain ⟨tail, -, hhead⟩ := ranked_head ht hfin
  have hne : ranked logits temperature ≠ [] := by simp [hhead]
  have hsum : 0 < heaviest (ranked logits temperature) (ranked logits temperature).length := by
    rw [heaviest, List.take_length]
    exact sum_pos ranked_pos hne
  obtain ⟨n, hcut, hn, -⟩ := nucleus_cut hsum hne 1 minP
  refine ⟨n, hcut, hn, fun x => ?_⟩
  have hrel : (if 0 < minP then minP else 0) = minP := by
    rcases hm.eq_or_lt with rfl | hlt
    · rw [if_neg (lt_irrefl _)]
    · rw [if_pos hlt]
  have hkept : ((candidates Real.exp temperature (maxLogit logits).1 logits).filter fun c => ¬c.prob < minP).map
      (fun c => (c.id, c.prob)) = (weights Real.exp temperature (maxLogit logits).1 logits).filter fun c => ¬c.2 < minP := by
    rw [weights, List.filter_map]
    rfl
  simp only [sampleFullVocab, List.isEmpty_iff, finites_ne_nil hfin, if_false, le_refl, if_true, sampleUncut, hrel, hkept]
  have hperm : ((weights Real.exp temperature (maxLogit logits).1 logits).filter fun c => ¬c.2 < minP).Perm
      ((ranked logits temperature).filter fun c => ¬c.2 < minP) := ((ranking_perm _).symm).filter _
  rcases le_or_gt minP 1 with hone | hone
  · rw [filter_eq_take ranked_sorted ranked_pos (by simpa [hhead] using hone) hcut] at hperm
    have hnil : (ranked logits temperature).take n ≠ [] := by simp [hhead, hcut.pos.ne']
    generalize ((weights Real.exp temperature (maxLogit logits).1 logits).filter fun c => ¬c.2 < minP) = kept at *
    have hfront := List.take_sublist n (ranked logits temperature)
    have hpos : ∀ c ∈ kept, 0 < c.2 := fun c hc => ranked_pos c (hfront.subset (hperm.mem_iff.mp hc))
    have hids : (kept.map Prod.fst).Nodup :=
      (hperm.map Prod.fst).nodup_iff.mpr ((hfront.map Prod.fst).nodup ranked_nodup)
    have hkne : kept ≠ [] := by
      rintro rfl
      exact hnil hperm.symm.eq_nil
    have hksum := sum_pos hpos hkne
    simp only [not_le.mpr hksum, if_false]
    rw [← specDistProb_perm (by rwa [normalised_ids]) (normalised_perm hperm), ← drawFrom_law hpos hids hkne x]
    refine uniform_congr fun u hu => ?_
    have hr : u * (kept.map Prod.snd).sum ≤ (kept.map Prod.snd).sum := mul_le_of_le_one_left hksum.le hu.2.le
    rw [mem_ofPred_eq, mem_ofPred_eq, draw1, uncut_eq_pick _ kept _ 0 hkne hr]
    rfl
  · -- nothing weighs as much, and the largest is the answer
    have hsmall : ∀ c ∈ ranked logits temperature, c.2 ≤ 1 := by
      intro c hc
      have hsorted : (ranked logits temperature).Pairwise fun a b => b.2 ≤ a.2 := ranked_sorted
      rw [hhead] at hc hsorted
      rcases List.mem_cons.mp hc with rfl | hc
      · exact le_rfl
      · exact (List.pairwise_cons.mp hsorted).1 c hc
    have hnone : ((weights Real.exp temperature (maxLogit logits).1 logits).filter fun c => ¬c.2 < minP) = [] := by
      refine List.filter_eq_nil_iff.mpr fun c hc => ?_
      simpa using (hsmall c ((ranking_perm _).mem_iff.mpr hc)).trans_lt hone
    have hn1 : n = 1 := by
      by_contra hn1
      refine hcut.least 1 Nat.one_pos (by have := hcut.pos; omega) ?_
      cases htail : tail with
      | nil => exact Or.inl (by rw [hhead, htail]; rfl)
      | cons d tail =>
        refine Or.inr (Or.inl ⟨_, by rw [hhead, htail]; rfl, (hsmall _ ?_).trans_lt hone⟩)
        rw [hhead, htail]
        exact List.mem_cons_of_mem _ List.mem_cons_self
    rw [hn1, ← front_law 1 Nat.one_pos hne x, hnone, hhead]
    simp [drawFrom, pick]

/-- A row without an entry above `DS4_NEG_INF` has no distribution, and a sampler has a token even so. -/
theorem no_law (hfin : ¬∃ c ∈ finites logits, negInf < c.2) (topK : ℤ) (topP minP : ℝ) (token : ℝ → ℤ) :
    ¬∀ x, uniform.real {u | token u = x} = specDistProb (specBuildTruncDist Real.exp logits temperature topK topP minP) x := by
  intro hall
  have hmax : (maxLogit logits).1 = negInf := by
    rcases maxLogit_ranking (finites logits) with ⟨hfold, -⟩ | ⟨b, tail, hfold, hrank, hb⟩
    · exact congrArg Prod.fst hfold
    · refine absurd ⟨(b.2, b.1), ?_, hb⟩ hfin
      exact (ranking_perm _).mem_iff.mp (by rw [hrank]; exact List.mem_cons_self)
  have hspec : specBuildTruncDist Real.exp logits temperature topK topP minP = [] := by
    simp only [specBuildTruncDist, hmax, if_true]
  have hnull : uniform (⋃ x : ℤ, {u | token u = x}) = 0 := by
    refine measure_iUnion_null fun x => ?_
    have hx := hall x
    rw [hspec, specDistProb, List.find?_nil] at hx
    exact (measureReal_eq_zero_iff).mp hx
  have huniv : (⋃ x : ℤ, {u | token u = x}) = univ := eq_univ_of_forall fun u => mem_iUnion.mpr ⟨token u, rfl⟩
  rw [huniv, measure_univ] at hnull
  exact one_ne_zero hnull

/-- `top_p` and `min_p` as every sampler reads them. -/
noncomputable def clampTopP (topP : ℝ) : ℝ := if topP ≤ 0 ∨ 1 < topP then 1 else topP

noncomputable def clampMinP (minP : ℝ) : ℝ := if minP < 0 then 0 else minP

theorem clampTopP_pos (topP : ℝ) : 0 < clampTopP topP ∧ clampTopP topP ≤ 1 := by
  rw [clampTopP]
  split_ifs with h
  · exact ⟨one_pos, le_rfl⟩
  · rw [not_or, not_le, not_lt] at h
    exact h

theorem clampMinP_nonneg (minP : ℝ) : 0 ≤ clampMinP minP := by
  rw [clampMinP]
  split_ifs with h
  · exact le_rfl
  · exact not_lt.mp h

/-- How many entries `spec_build_trunc_dist` looks at. -/
def specCap (topK : ℤ) : ℕ := if 0 < topK ∧ topK < 1024 then topK.toNat else 1024

theorem take_specCap {α : Type} (l : List α) (topK : ℤ) :
    (l.take 1024).take (if 0 < topK ∧ topK < ((l.take 1024).length : ℤ) then topK.toNat else (l.take 1024).length) =
      l.take (specCap topK) := by
  have hlen : (l.take 1024).length = min 1024 l.length := List.length_take
  rw [specCap, hlen]
  split_ifs with h1 h2 h2
  · rw [List.take_take, min_eq_left (by omega)]
  · omega
  · rw [← hlen, List.take_length, List.take_of_length_le (by omega), List.take_of_length_le (by omega)]
  · rw [← hlen, List.take_length]

/-- `spec_build_trunc_dist` keeps a cut of its list, by the sum of the whole row. -/
theorem specBuildTruncDist_cut (ht : 0 < temperature) (hfin : ∃ c ∈ finites logits, negInf < c.2) (topK : ℤ)
    (topP minP : ℝ) :
    ∃ n, IsCut (clampTopP topP * heaviest (ranked logits temperature) (ranked logits temperature).length)
        (clampMinP minP) ((ranked logits temperature).take (specCap topK)) n ∧
      n ≤ ((ranked logits temperature).take (specCap topK)).length ∧
      specBuildTruncDist Real.exp logits temperature topK topP minP =
        normalised ((ranked logits temperature).take n) := by
  obtain ⟨tail, hrank, hhead⟩ := ranked_head ht hfin
  have hmax : ¬(maxLogit logits).1 = negInf := by
    rcases maxLogit_ranking (finites logits) with ⟨-, hle⟩ | ⟨b, -, hfold, -, hb⟩
    · obtain ⟨c, hc, hlt⟩ := hfin
      exact absurd hlt (not_lt.mpr (hle c hc))
    · obtain rfl : maxLogit logits = b := hfold
      exact hb.ne'
  have hweights : (((candidates Real.exp temperature (maxLogit logits).1 logits).map fun c => (c.id, c.prob)).map
      Prod.snd).sum = heaviest (ranked logits temperature) (ranked logits temperature).length := ranked_sum.symm
  have htopk : ((((candidates Real.exp temperature (maxLogit logits).1 logits).map fun c => (c.id, c.prob)).foldl
      (insertBounded Prod.snd specNucleusCap) []).reverse) = (ranked logits temperature).take 1024 := by
    rw [foldl_insertBounded_take, List.reverse_reverse]
    rfl
  have hpos : ∀ c ∈ ranked logits temperature, 0 < c.2 := ranked_pos
  simp only [specBuildTruncDist, not_le.mpr ht, if_false, hmax, hweights, htopk]
  generalize ranked logits temperature = l at *
  have hne : l ≠ [] := by simp [hhead]
  have hsum : 0 < heaviest l l.length := by
    rw [heaviest, List.take_length]
    exact sum_pos hpos hne
  generalize heaviest l l.length = sum at *
  have hcap : specCap topK ≠ 0 := by
    rw [specCap]
    split_ifs with h
    · omega
    · decide
  have hfront : l.take (specCap topK) ≠ [] := by
    rw [ne_eq, List.take_eq_nil_iff, not_or]
    exact ⟨hcap, hne⟩
  obtain ⟨n, hcut, hn, hnuc⟩ := nucleus_cut hsum hfront (clampTopP topP) (clampMinP minP)
  refine ⟨n, hcut, hn, ?_⟩
  have htake : (l.take (specCap topK)).take n = l.take n := by
    rw [List.take_take, min_eq_left (hn.trans (List.length_take_le _ _))]
  rw [htake] at hnuc
  have hkept : l.take n ≠ [] := by
    rw [ne_eq, List.take_eq_nil_iff, not_or]
    exact ⟨hcut.pos.ne', hne⟩
  have hksum := sum_pos (fun c hc => hpos c (List.mem_of_mem_take hc)) hkept
  rw [if_neg (not_le.mpr hsum)]
  have hcons : l.take 1024 = ((maxLogit logits).2, (1 : ℝ)) ::
      (tail.map fun c => (c.1, Real.exp ((c.2 - (maxLogit logits).1) / temperature))).take 1023 := by
    rw [hhead]
    rfl
  have hcapped := take_specCap l topK
  rw [hcons] at hcapped ⊢
  simp only [hcapped]
  rw [clampTopP, clampMinP] at hnuc
  rw [hnuc, if_neg (not_or.mpr ⟨fun h => hkept (List.isEmpty_iff.mp h), not_le.mpr hksum⟩), normalised]

/-! ## When both agree -/

/-- The bounded list holds the cut: `min_p` ends it by rank 1024, or the 1024 largest weigh enough. -/
def FullAgrees (logits : List (Logit ℝ)) (temperature topP minP : ℝ) : Prop :=
  1024 < (ranked logits temperature).length → Passes minP (ranked logits temperature) 1024 →
    topP * heaviest (ranked logits temperature) (ranked logits temperature).length ≤
      heaviest (ranked logits temperature) 1024

/-- Where some of the `k` largest weigh enough of them all, they weigh enough of the whole row. -/
def TopAgrees (logits : List (Logit ℝ)) (temperature : ℝ) (k : ℕ) (topP minP : ℝ) : Prop :=
  ∀ j, 0 < j → j < ((ranked logits temperature).take k).length → Passes minP ((ranked logits temperature).take k) j →
    topP * heaviest (ranked logits temperature) k ≤ heaviest (ranked logits temperature) j →
      topP * heaviest (ranked logits temperature) (ranked logits temperature).length ≤
        heaviest (ranked logits temperature) j

theorem laws_agree_iff {law : ℤ → ℝ} {dist : List (ℕ × ℝ)} (hfin : ∃ c ∈ finites logits, negInf < c.2) {n n' : ℕ}
    (hn : 0 < n) (hn' : 0 < n') (hnl : n ≤ (ranked logits temperature).length)
    (hnl' : n' ≤ (ranked logits temperature).length)
    (hlaw : ∀ x, law x = specDistProb (normalised ((ranked logits temperature).take n)) x)
    (hdist : dist = normalised ((ranked logits temperature).take n')) {p : Prop} (hp : n = n' ↔ p) :
    (∀ x, law x = specDistProb dist x) ↔ (∃ c ∈ finites logits, negInf < c.2) ∧ p := by
  simp only [hlaw, hdist, normalised_take_iff ranked_pos ranked_nodup hn hn' hnl hnl', hp, hfin, true_and]

theorem length_take_le_length {α : Type} (l : List α) (k : ℕ) : (l.take k).length ≤ l.length := by
  rw [List.length_take]
  exact min_le_right _ _

theorem fullVocab_law_iff (ht : 0 < temperature) {topK : ℤ} (htopK : topK ≤ 0) (topP minP : ℝ) :
    (∀ x, uniform.real {u | (sampleTopPMinP Real.exp draw1 logits temperature topK topP minP u).1 = x} =
        specDistProb (specBuildTruncDist Real.exp logits temperature topK topP minP) x) ↔
      (∃ c ∈ finites logits, negInf < c.2) ∧ FullAgrees logits temperature (clampTopP topP) (clampMinP minP) := by
  by_cases hfin : ∃ c ∈ finites logits, negInf < c.2
  swap
  · exact iff_of_false (no_law hfin topK topP minP _) fun h => hfin h.1
  obtain ⟨tail, -, hhead⟩ := ranked_head ht hfin
  obtain ⟨hpos, hone⟩ := clampTopP_pos topP
  have hm := clampMinP_nonneg minP
  obtain ⟨n', hcut', hn', hspec⟩ := specBuildTruncDist_cut ht hfin topK topP minP
  have hcap : specCap topK = 1024 := if_neg (by omega)
  rw [hcap] at hcut' hn'
  have hplain : ∃ n, IsCut (clampTopP topP * heaviest (ranked logits temperature) (ranked logits temperature).length)
      (clampMinP minP) (ranked logits temperature) n ∧ n ≤ (ranked logits temperature).length ∧
      ∀ x : ℤ, uniform.real {u | (sampleTopPMinP Real.exp draw1 logits temperature topK topP minP u).1 = x} =
        specDistProb (normalised ((ranked logits temperature).take n)) x := by
    simp only [sampleTopPMinP, not_le.mpr ht, if_false, htopK, if_true]
    change ∃ n, _ ∧ _ ∧ ∀ x : ℤ, uniform.real {u | ((sampleFullVocab Real.exp draw1 logits temperature (clampTopP topP)
      (clampMinP minP) u).1 : ℤ) = x} = _
    rcases hone.lt_or_eq with hlt | heq
    · obtain ⟨n, hcut, hn, hdraw⟩ := sampleFullVocab_cut ht hfin hpos hlt hm
      refine ⟨n, hcut, hn, fun x => ?_⟩
      simp only [hdraw]
      exact front_law n hcut.pos (by simp [hhead]) x
    · rw [heq]
      exact sampleFullVocab_uncut ht hfin hm
  obtain ⟨n, hcut, hn, hlaw⟩ := hplain
  exact laws_agree_iff hfin hcut.pos hcut'.pos hn (hn'.trans (length_take_le_length _ _)) hlaw hspec
    (cut_front_iff ranked_pos (by omega) hcut hcut')

/-- The shared loop against the speculative cut, over as many entries. -/
theorem top_law_iff (ht : 0 < temperature) {k : ℕ} (hk : 0 < k) {topK : ℤ}
    (htake : (ranked logits temperature).take k = (ranked logits temperature).take (specCap topK)) (topP minP : ℝ)
    (hfin : ∃ c ∈ finites logits, negInf < c.2) (argmax : ℤ) :
    (∀ x, uniform.real {u | (sampleTop Real.exp draw1 (finites logits) argmax temperature k (clampTopP topP)
        (clampMinP minP) u).1 = x} =
          specDistProb (specBuildTruncDist Real.exp logits temperature topK topP minP) x) ↔
      (∃ c ∈ finites logits, negInf < c.2) ∧
        TopAgrees logits temperature (specCap topK) (clampTopP topP) (clampMinP minP) := by
  obtain ⟨tail, -, hhead⟩ := ranked_head ht hfin
  obtain ⟨hpos, -⟩ := clampTopP_pos topP
  obtain ⟨n, hcut, hn, hlaw⟩ := sampleTop_law ht hfin hk (clampTopP topP) (clampMinP_nonneg minP) argmax
  obtain ⟨n', hcut', hn', hspec⟩ := specBuildTruncDist_cut ht hfin topK topP minP
  have hsum : heaviest (ranked logits temperature) k = heaviest (ranked logits temperature) (specCap topK) := by
    rw [heaviest, heaviest, htake]
  rw [htake, hsum] at hcut
  rw [htake] at hn
  have hne : (ranked logits temperature).take (specCap topK) ≠ [] := by
    rw [← htake, ne_eq, List.take_eq_nil_iff, not_or]
    exact ⟨hk.ne', by simp [hhead]⟩
  have hle : heaviest (ranked logits temperature) (specCap topK) ≤
      heaviest (ranked logits temperature) (ranked logits temperature).length := by
    rcases le_total (specCap topK) (ranked logits temperature).length with h | h
    · exact heaviest_mono ranked_pos h
    · rw [heaviest, heaviest, List.take_of_length_le h, List.take_length]
  refine laws_agree_iff hfin hcut.pos hcut'.pos (hn.trans (length_take_le_length _ _))
    (hn'.trans (length_take_le_length _ _)) hlaw hspec ?_
  rw [cuts_eq_iff (mul_le_mul_of_nonneg_left hle hpos.le) hne (fun c hc => ranked_pos c (List.mem_of_mem_take hc))
    hcut hcut', TopAgrees]
  refine forall_congr' fun j => forall_congr' fun _ => forall_congr' fun hj => ?_
  have hjk : j ≤ specCap topK := hj.le.trans (List.length_take_le _ _)
  have hfront : heaviest ((ranked logits temperature).take (specCap topK)) j = heaviest (ranked logits temperature) j := by
    rw [heaviest, heaviest, List.take_take, min_eq_left hjk]
  rw [hfront]

theorem finites_length_le : (finites logits).length ≤ logits.length :=
  (List.length_filterMap_le _ logits.zipIdx).trans_eq List.length_zipIdx

/-- `top_k` beyond the list or the vocabulary takes what there is. -/
theorem take_clamped {topK : ℤ} {k : ℕ}
    (hk : k = specCap topK ∨ k = logits.length ∧ logits.length ≤ specCap topK) :
    (ranked logits temperature).take k = (ranked logits temperature).take (specCap topK) := by
  rcases hk with rfl | ⟨rfl, hle⟩
  · rfl
  · have hlen : (ranked logits temperature).length ≤ logits.length := ranked_length.trans_le finites_length_le
    rw [List.take_of_length_le hlen, List.take_of_length_le (hlen.trans hle)]

theorem topPMinP_law_iff (ht : 0 < temperature) (topK : ℤ) (topP minP : ℝ) :
    (∀ x, uniform.real {u | (sampleTopPMinP Real.exp draw1 logits temperature topK topP minP u).1 = x} =
        specDistProb (specBuildTruncDist Real.exp logits temperature topK topP minP) x) ↔
      (∃ c ∈ finites logits, negInf < c.2) ∧
        if topK ≤ 0 then FullAgrees logits temperature (clampTopP topP) (clampMinP minP)
        else TopAgrees logits temperature (specCap topK) (clampTopP topP) (clampMinP minP) := by
  by_cases hfin : ∃ c ∈ finites logits, negInf < c.2
  swap
  · exact iff_of_false (no_law hfin topK topP minP _) fun h => hfin h.1
  have hlen : 0 < logits.length := (List.length_pos_iff.mpr (finites_ne_nil hfin)).trans_le finites_length_le
  by_cases htopK : topK ≤ 0
  · rw [if_pos htopK]
    exact fullVocab_law_iff ht htopK topP minP
  · rw [if_neg htopK]
    simp only [sampleTopPMinP, not_le.mpr ht, if_false, htopK]
    refine top_law_iff ht ?_ (take_clamped ?_) topP minP hfin _
    · split_ifs <;> omega
    · rw [specCap]
      split_ifs <;> omega

theorem excluding_law_iff (ht : 0 < temperature) (topK : ℤ) (topP minP : ℝ) {excludedId1 excludedId2 : ℤ}
    (hex : ∀ c ∈ finites logits, (c.1 : ℤ) ≠ excludedId1 ∧ (c.1 : ℤ) ≠ excludedId2) :
    (∀ x, uniform.real {u | (sampleTopPMinPExcluding Real.exp draw1 logits temperature topK topP minP u
        excludedId1 excludedId2).1 = x} =
          specDistProb (specBuildTruncDist Real.exp logits temperature topK topP minP) x) ↔
      (∃ c ∈ finites logits, negInf < c.2) ∧
        TopAgrees logits temperature (specCap topK) (clampTopP topP) (clampMinP minP) := by
  by_cases hfin : ∃ c ∈ finites logits, negInf < c.2
  swap
  · exact iff_of_false (no_law hfin topK topP minP _) fun h => hfin h.1
  have hlen : 0 < logits.length := (List.length_pos_iff.mpr (finites_ne_nil hfin)).trans_le finites_length_le
  have hall : (finites logits).filter (fun c => ¬((c.1 : ℤ) = excludedId1 ∨ (c.1 : ℤ) = excludedId2)) =
      finites logits := List.filter_eq_self.mpr fun c hc => by simpa [not_or] using hex c hc
  simp only [sampleTopPMinPExcluding, not_le.mpr ht, if_false, hall]
  refine top_law_iff ht ?_ (take_clamped ?_) topP minP hfin _
  · split_ifs <;> omega
  · rw [specCap]
    split_ifs <;> omega

end

/-- The samplers draw from what `spec_build_trunc_dist` makes of a row exactly when the
    cut-offs cut the row and what is sampled from alike. -/
theorem plain_law_iff (logits : List (Logit ℝ)) {temperature : ℝ} (ht : 0 < temperature) (topK : ℤ) (topP minP : ℝ) :
    ((∀ x, uniform.real {u | (sampleTopPMinP Real.exp draw1 logits temperature topK topP minP u).1 = x} =
        specDistProb (specBuildTruncDist Real.exp logits temperature topK topP minP) x) ↔
      (∃ c ∈ finites logits, negInf < c.2) ∧
        if topK ≤ 0 then FullAgrees logits temperature (clampTopP topP) (clampMinP minP)
        else TopAgrees logits temperature (specCap topK) (clampTopP topP) (clampMinP minP)) ∧
    ∀ excludedId1 excludedId2 : ℤ, (∀ c ∈ finites logits, (c.1 : ℤ) ≠ excludedId1 ∧ (c.1 : ℤ) ≠ excludedId2) →
      ((∀ x, uniform.real {u | (sampleTopPMinPExcluding Real.exp draw1 logits temperature topK topP minP u
          excludedId1 excludedId2).1 = x} =
            specDistProb (specBuildTruncDist Real.exp logits temperature topK topP minP) x) ↔
        (∃ c ∈ finites logits, negInf < c.2) ∧
          TopAgrees logits temperature (specCap topK) (clampTopP topP) (clampMinP minP)) :=
  ⟨topPMinP_law_iff ht topK topP minP, fun _ _ hex => excluding_law_iff ht topK topP minP hex⟩

theorem plain_law_iff_sample :
    (∀ x, uniform.real {u | (sampleTopPMinPExcluding Real.exp draw1 [.fin 0] 1 0 1 0 u (-1) (-1)).1 = x} =
        specDistProb (specBuildTruncDist Real.exp [.fin 0] 1 0 1 0) x) ↔
      (∃ c ∈ finites [.fin (0 : ℝ)], negInf < c.2) ∧ TopAgrees [.fin 0] 1 (specCap 0) (clampTopP 1) (clampMinP 0) :=
  (plain_law_iff [.fin 0] one_pos 0 1 0).2 (-1) (-1) (by simp [finites])

/-- The largest of the two has 0.7 of their weight, and not of the weight of all three. -/
theorem plain_law_differs :
    ¬∀ x, uniform.real {u | (sampleTopPMinP Real.exp draw1 [.fin 0, .fin (-1), .fin (-2)] 1 2 (7 / 10) 0 u).1 = x} =
      specDistProb (specBuildTruncDist Real.exp [.fin 0, .fin (-1), .fin (-2)] 1 2 (7 / 10) 0) x := by
  rw [topPMinP_law_iff one_pos, if_neg (by decide)]
  rintro ⟨-, hagree⟩
  have hfin : finites [.fin (0 : ℝ), .fin (-1), .fin (-2)] = [(0, 0), (1, -1), (2, -2)] := rfl
  have hmax : (maxLogit [.fin (0 : ℝ), .fin (-1), .fin (-2)]).1 = 0 := by
    rw [maxLogit, hfin]
    norm_num [negInf]
  have hranked : ranked [.fin (0 : ℝ), .fin (-1), .fin (-2)] 1 = [(0, 1), (1, Real.exp (-1)), (2, Real.exp (-2))] := by
    rw [ranked, ranking_finites one_pos, hmax, hfin]
    norm_num [ranking]
  have hcap : specCap 2 = 2 := by decide
  have htop : clampTopP (7 / 10) = 7 / 10 := if_neg (by norm_num)
  have hmin : clampMinP 0 = 0 := if_neg (lt_irrefl 0)
  have hlow := Real.exp_neg_one_gt_d9
  have hhigh := Real.exp_neg_one_lt_d9
  have hsquare : Real.exp (-2) = Real.exp (-1) * Real.exp (-1) := by rw [← Real.exp_add]; norm_num
  rw [TopAgrees, hcap, htop, hmin, hranked] at hagree
  have hpass : Passes 0 ([(0, 1), (1, Real.exp (-1)), (2, Real.exp (-2))].take 2) 1 := by
    intro i c hi hij hc
    obtain rfl : i = 1 := by omega
    obtain rfl := Option.some.inj hc
    exact (Real.exp_pos _).le
  have hwhole := hagree 1 Nat.one_pos (by simp) hpass (by simp [heaviest]; linarith)
  simp only [heaviest, List.length_cons, List.length_nil, List.take_succ_cons, List.take_zero, List.map_cons,
    List.map_nil, List.sum_cons, List.sum_nil, hsquare] at hwhole
  nlinarith

end Ds4.Sampling
