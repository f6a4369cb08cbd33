import Mathlib.MeasureTheory.Measure.Lebesgue.Basic
import Mathlib.MeasureTheory.Measure.Prod
import Mathlib.MeasureTheory.Measure.Real
import Mathlib.Analysis.SpecialFunctions.Exp
import Ds4.Sampling.Sampler

/- One step of speculative sampling keeps the target distribution.

   Definitions.
     1. `uniform` and `draws`: the ideal source, three independent numbers of [0, 1).
     2. `IsDist`: positive weights of different tokens with sum 1.
     3. `specRound`: the draw of a draft from `q`, and the step that follows it.

   What is proved.
     1. `pick` draws from the list it is given (`IsDist.law`).
     2. What `spec_build_trunc_dist` returns is empty or a distribution.
     3. The accepted drafts and the replacements of the rejected ones add up to the
        target (`accepted_add_replaced`), so the token has its law (`specRound_token`).
     4. The residual is not empty after a rejection (`residual_ne_nil`). -/
namespace Ds4.Sampling
open MeasureTheory Set

/-! ## The ideal source -/

/-- A number drawn from the unit interval. -/
noncomputable def uniform : Measure ℝ := volume.restrict (Ico 0 1)

instance : IsProbabilityMeasure uniform :=
  ⟨by rw [uniform, Measure.restrict_apply_univ, Real.volume_Ico]; norm_num⟩

theorem uniform_Iic {a : ℝ} (ha : 0 ≤ a) : uniform.real (Iic a) = min a 1 := by
  rw [uniform, measureReal_restrict_apply measurableSet_Iic]
  rcases lt_or_ge a 1 with h | h
  · have hset : Iic a ∩ Ico 0 1 = Icc 0 a := by
      ext u
      simp only [mem_inter_iff, mem_Iic, mem_Ico, mem_Icc]
      constructor
      · exact fun h => ⟨h.2.1, h.1⟩
      · exact fun hu => ⟨hu.2, hu.1, hu.2.trans_lt h⟩
    rw [hset, Real.volume_real_Icc_of_le ha, min_eq_left h.le, sub_zero]
  · have hset : Iic a ∩ Ico 0 1 = Ico 0 1 := inter_eq_right.mpr fun u hu => (hu.2.trans_le h).le
    rw [hset, Real.volume_real_Ico_of_le zero_le_one, min_eq_right h, sub_zero]

theorem uniform_Ioc {a b : ℝ} (ha : 0 ≤ a) (hab : a ≤ b) (hb : b ≤ 1) : uniform.real (Ioc a b) = b - a := by
  have hset : Ioc a b = Iic b \ Iic a := by
    ext u
    simp [and_comm]
  rw [hset, measureReal_sdiff (Iic_subset_Iic.mpr hab) measurableSet_Iic, uniform_Iic (ha.trans hab), uniform_Iic ha,
    min_eq_left hb, min_eq_left (hab.trans hb)]

theorem uniform_above {s : Set ℝ} (hs : s ⊆ Ioi 1) : uniform.real s = 0 := by
  refine measureReal_mono_null hs ?_
  have hset : Ioi (1 : ℝ) ∩ Ico 0 1 = ∅ := by
    ext u
    simp only [mem_inter_iff, mem_Ioi, mem_Ico, mem_empty_iff_false, iff_false]
    exact fun h => absurd h.2.2 (not_lt.mpr h.1.le)
  rw [uniform, measureReal_restrict_apply measurableSet_Ioi, hset, measureReal_empty]

/-! ## Sparse distributions -/

/-- What a sparse list has to be to stand for a distribution. -/
structure IsDist (l : List (ℕ × ℝ)) : Prop where
  pos : ∀ c ∈ l, 0 < c.2
  nodup : (l.map Prod.fst).Nodup
  sum : (l.map Prod.snd).sum = 1

theorem specDistProb_cons (c : ℕ × ℝ) (l : List (ℕ × ℝ)) (x : ℕ) :
    specDistProb (c :: l) x = if c.1 = x then c.2 else specDistProb l x := by
  rw [specDistProb, List.find?_cons]
  by_cases h : c.1 = x
  · simp [h]
  · have h' : ¬((c.1 : ℤ) = x) := by exact_mod_cast h
    simp [h, h', specDistProb]

theorem specDistProb_of_notMem {l : List (ℕ × ℝ)} {x : ℕ} (h : x ∉ l.map Prod.fst) : specDistProb l x = 0 := by
  induction l with
  | nil => rfl
  | cons c l ih =>
    rw [List.map_cons, List.mem_cons, not_or] at h
    rw [specDistProb_cons, if_neg (Ne.symm h.1), ih h.2]

theorem specDistProb_of_mem {l : List (ℕ × ℝ)} (hn : (l.map Prod.fst).Nodup) {c : ℕ × ℝ} (hc : c ∈ l) :
    specDistProb l c.1 = c.2 := by
  induction l with
  | nil => cases hc
  | cons d l ih =>
    rw [List.map_cons, List.nodup_cons] at hn
    rw [specDistProb_cons]
    rcases List.mem_cons.mp hc with rfl | hc
    · rw [if_pos rfl]
    · rw [if_neg fun h => hn.1 (by rw [h]; exact List.mem_map_of_mem hc), ih hn.2 hc]

theorem IsDist.prob_nonneg {l : List (ℕ × ℝ)} (hl : IsDist l) (x : ℕ) : 0 ≤ specDistProb l x := by
  by_cases h : x ∈ l.map Prod.fst
  · obtain ⟨c, hc, rfl⟩ := List.mem_map.mp h
    rw [specDistProb_of_mem hl.nodup hc]
    exact (hl.pos c hc).le
  · rw [specDistProb_of_notMem h]

theorem sum_specDistProb {l : List (ℕ × ℝ)} (hn : (l.map Prod.fst).Nodup) (f : ℕ → ℝ → ℝ) :
    ∑ x ∈ (l.map Prod.fst).toFinset, f x (specDistProb l x) = (l.map fun c => f c.1 c.2).sum := by
  rw [List.sum_toFinset _ hn, List.map_map]
  congr 1
  exact List.map_congr_left fun c hc => by rw [Function.comp_apply, specDistProb_of_mem hn hc]

theorem IsDist.ne_nil {l : List (ℕ × ℝ)} (hl : IsDist l) : l ≠ [] := by
  rintro rfl
  simpa using hl.sum

/-- The law of one draw, from `a` on. -/
theorem pick_law (x : ℕ) : ∀ (l : List (ℕ × ℝ)) (a : ℝ) (last : ℕ), 0 ≤ a → (∀ c ∈ l, 0 < c.2) →
    (l.map Prod.fst).Nodup → a + (l.map Prod.snd).sum = 1 →
    MeasurableSet {u : ℝ | a < u ∧ pick (u - a) last l = x} ∧
      uniform.real {u : ℝ | a < u ∧ pick (u - a) last l = x} = specDistProb l x
  | [], a, last, _, _, _, hsum => by
    obtain rfl : a = 1 := by simpa using hsum
    refine ⟨?_, ?_⟩
    · by_cases h : last = x
      · simp only [pick, h, and_true]
        exact measurableSet_Ioi
      · simp [pick, h]
    · rw [uniform_above fun u hu => hu.1]
      rfl
  | c :: l, a, last, ha, hpos, hnodup, hsum => by
    have hc := hpos c (by simp)
    rw [List.map_cons, List.nodup_cons] at hnodup
    rw [List.map_cons, List.sum_cons] at hsum
    have htail : 0 ≤ (l.map Prod.snd).sum := List.sum_nonneg fun y hy => by
      obtain ⟨d, hd, rfl⟩ := List.mem_map.mp hy
      exact (hpos d (by simp [hd])).le
    obtain ⟨hm, hlaw⟩ := pick_law x l (a + c.2) c.1 (by linarith) (fun d hd => hpos d (by simp [hd])) hnodup.2
      (by linarith)
    have hset : {u : ℝ | a < u ∧ pick (u - a) last (c :: l) = x} =
        (if c.1 = x then Ioc a (a + c.2) else ∅) ∪ {u : ℝ | a + c.2 < u ∧ pick (u - (a + c.2)) c.1 l = x} := by
      ext u
      have hstep : u - a - c.2 = u - (a + c.2) := by ring
      simp only [pick, hstep, mem_ofPred_eq, mem_union]
      by_cases hu : u ≤ a + c.2
      · rw [if_pos (by linarith)]
        by_cases hx : c.1 = x
        · simp [hx, hu, not_lt.mpr hu]
        · simp [hx, not_lt.mpr hu]
      · have hau : a < u := by linarith [not_le.mp hu]
        rw [if_neg (by linarith [not_le.mp hu])]
        by_cases hx : c.1 = x
        · simp [hx, hu, hau, not_le.mp hu]
        · simp [hx, hau, not_le.mp hu]
    have hfirst : MeasurableSet (if c.1 = x then Ioc a (a + c.2) else ∅) := by
      split_ifs
      · exact measurableSet_Ioc
      · exact MeasurableSet.empty
    have hdisj : Disjoint (if c.1 = x then Ioc a (a + c.2) else ∅)
        {u : ℝ | a + c.2 < u ∧ pick (u - (a + c.2)) c.1 l = x} := by
      split_ifs
      · exact Set.disjoint_left.mpr fun u hu hu' => absurd hu'.1 (not_lt.mpr hu.2)
      · exact Set.empty_disjoint _
    rw [hset]
    refine ⟨hfirst.union hm, ?_⟩
    rw [measureReal_union hdisj hm, hlaw, specDistProb_cons]
    by_cases hx : c.1 = x
    · rw [if_pos hx, if_pos hx, uniform_Ioc ha (by linarith) (by linarith), specDistProb_of_notMem (hx ▸ hnodup.1)]
      ring
    · rw [if_neg hx, if_neg hx, measureReal_empty, zero_add]

theorem measurable_pick (l : List (ℕ × ℝ)) : ∀ (a : ℝ) (last : ℕ), Measurable fun u => pick (u - a) last l := by
  induction l with
  | nil => exact fun a last => measurable_const
  | cons c l ih =>
    intro a last
    have hstep : ∀ u : ℝ, u - a - c.2 = u - (a + c.2) := fun u => by ring
    simp only [pick, hstep]
    refine Measurable.ite ?_ measurable_const (ih (a + c.2) c.1)
    exact measurableSet_le (measurable_id.sub_const _) measurable_const

/-- A draw by `spec_sample_from_dist` has the distribution it is drawn from. -/
theorem IsDist.law {l : List (ℕ × ℝ)} (hl : IsDist l) (x : ℕ) :
    MeasurableSet {u : ℝ | pick u 0 l = x} ∧ uniform.real {u : ℝ | pick u 0 l = x} = specDistProb l x := by
  obtain ⟨hm, hlaw⟩ := pick_law x l 0 0 le_rfl hl.pos hl.nodup (by rw [zero_add, hl.sum])
  have hmeas : MeasurableSet {u : ℝ | pick u 0 l = x} := by
    have := measurable_pick l 0 0
    simp only [sub_zero] at this
    exact this (measurableSet_singleton x)
  refine ⟨hmeas, ?_⟩
  have hzero : uniform.real (Iic (0 : ℝ)) = 0 := by rw [uniform_Iic le_rfl, min_eq_left zero_le_one]
  have hset : {u : ℝ | 0 < u ∧ pick (u - 0) 0 l = x} = {u : ℝ | pick u 0 l = x} \ Iic 0 := by
    ext u
    simp [and_comm]
  rw [← hlaw, hset, measureReal_sdiff_null hzero]

/-! ## What is built is a distribution -/

theorem map_filterMap_sublist {α β γ : Type} {f : α → Option β} {g : β → γ} {h : α → γ}
    (hf : ∀ a b, f a = some b → g b = h a) (l : List α) : ((l.filterMap f).map g).Sublist (l.map h) := by
  induction l with
  | nil => exact List.Sublist.slnil
  | cons a l ih =>
    rw [List.filterMap_cons]
    cases hfa : f a with
    | none => exact ih.cons (h a)
    | some b =>
      rw [List.map_cons, List.map_cons, hf a b hfa]
      exact ih.cons_cons (h a)

theorem finites_nodup (logits : List (Logit ℝ)) : ((finites logits).map Prod.fst).Nodup := by
  have hsub : ((finites logits).map Prod.fst).Sublist (logits.zipIdx.map Prod.snd) := by
    refine map_filterMap_sublist (fun a b h => ?_) logits.zipIdx
    obtain ⟨v, i⟩ := a
    cases v with
    | fin v =>
      obtain rfl := Option.some.inj h
      rfl
    | nan => cases h
    | posInf => cases h
    | negInf => cases h
  refine hsub.nodup ?_
  rw [List.zipIdx_map_snd]
  exact List.nodup_range'

theorem nucleus_isPrefix (sum topP minProb : ℝ) : ∀ (l : List (ℕ × ℝ)) (first : Bool) (acc : ℝ),
    (nucleus sum topP minProb first acc l).1 <+: l ∧
      (nucleus sum topP minProb first acc l).2 = acc + ((nucleus sum topP minProb first acc l).1.map Prod.snd).sum
  | [], first, acc => ⟨List.prefix_rfl, by simp [nucleus]⟩
  | c :: l, first, acc => by
    rw [nucleus]
    split_ifs with h1 h2
    · exact ⟨List.nil_prefix, by simp⟩
    · exact ⟨(List.cons_prefix_cons.mpr ⟨rfl, List.nil_prefix⟩), by simp⟩
    · obtain ⟨hpre, hsum⟩ := nucleus_isPrefix sum topP minProb l false (acc + c.2)
      refine ⟨List.cons_prefix_cons.mpr ⟨rfl, hpre⟩, ?_⟩
      simp only [hsum, List.map_cons, List.sum_cons, add_assoc]

theorem nucleus_ne_nil {sum topP minProb : ℝ} {c : ℕ × ℝ} {l : List (ℕ × ℝ)} :
    (nucleus sum topP minProb true 0 (c :: l)).1 ≠ [] := by
  rw [nucleus, if_neg (by simp)]
  split_ifs <;> exact List.cons_ne_nil _ _

/-- Positive weights of different tokens, divided by their sum. -/
theorem isDist_scaled {l : List (ℕ × ℝ)} (hpos : ∀ c ∈ l, 0 < c.2) (hnodup : (l.map Prod.fst).Nodup)
    (hsum : 0 < (l.map Prod.snd).sum) : IsDist (l.map fun c => (c.1, c.2 * (1 / (l.map Prod.snd).sum))) where
  pos := by
    intro d hd
    obtain ⟨c, hc, rfl⟩ := List.mem_map.mp hd
    exact mul_pos (hpos c hc) (one_div_pos.mpr hsum)
  nodup := by rwa [List.map_map]
  sum := by
    rw [List.map_map]
    have : (Prod.snd ∘ fun c : ℕ × ℝ => (c.1, c.2 * (1 / (l.map Prod.snd).sum))) =
        fun c => c.2 * (1 / (l.map Prod.snd).sum) := rfl
    rw [this, List.sum_map_mul_right, mul_one_div_cancel hsum.ne']

/-- What `spec_build_trunc_dist` returns is empty or a distribution. -/
theorem specBuildTruncDist_isDist (logits : List (Logit ℝ)) (temperature : ℝ) (topK : ℤ) (topP minP : ℝ)
    (hne : specBuildTruncDist Real.exp logits temperature topK topP minP ≠ []) :
    IsDist (specBuildTruncDist Real.exp logits temperature topK topP minP) := by
  revert hne
  simp only [specBuildTruncDist]
  generalize (if temperature ≤ 0 then 1 else temperature) = t
  generalize (if topP ≤ 0 ∨ 1 < topP then 1 else topP) = tp
  generalize (if minP < 0 then 0 else minP) = mp
  generalize hcand : (candidates Real.exp t (maxLogit logits).1 logits).map (fun c => (c.id, c.prob)) = cand
  have hpos : ∀ c ∈ cand, 0 < c.2 := by
    intro c hc
    rw [← hcand, candidates, List.map_map] at hc
    obtain ⟨d, -, rfl⟩ := List.mem_map.mp hc
    exact Real.exp_pos _
  have hnodup : (cand.map Prod.fst).Nodup := by
    have hids : cand.map Prod.fst = (finites logits).map Prod.fst := by
      rw [← hcand]
      simp [candidates]
    rw [hids]
    exact finites_nodup logits
  have hsub : (cand.foldl (insertBounded Prod.snd specNucleusCap) []).Subperm (cand ++ []) :=
    foldl_insertBounded_subperm specNucleusCap cand []
  rw [List.append_nil] at hsub
  split_ifs with h1 h2
  · exact fun h => absurd rfl h
  · exact fun h => absurd rfl h
  cases htopk : (cand.foldl (insertBounded Prod.snd specNucleusCap) []).reverse with
  | nil => exact fun h => absurd rfl h
  | cons c l =>
    intro _
    have hsub' : (c :: l).Subperm cand := htopk ▸ (List.reverse_perm _).subperm.trans hsub
    have hcap : 0 < (if 0 < topK ∧ topK < ((c :: l).length : ℤ) then topK.toNat else (c :: l).length) := by
      split_ifs with h
      · omega
      · exact Nat.succ_pos _
    simp only
    generalize (if 0 < topK ∧ topK < ((c :: l).length : ℤ) then topK.toNat else (c :: l).length) = cap at hcap
    obtain ⟨n, rfl⟩ := Nat.exists_eq_succ_of_ne_zero hcap.ne'
    obtain ⟨hpre, hsum⟩ := nucleus_isPrefix (cand.map Prod.snd).sum tp (c.2 / (cand.map Prod.snd).sum * mp)
      ((c :: l).take (n + 1)) true 0
    have hne : (nucleus (cand.map Prod.snd).sum tp (c.2 / (cand.map Prod.snd).sum * mp) true 0
        ((c :: l).take (n + 1))).1 ≠ [] := nucleus_ne_nil
    generalize nucleus (cand.map Prod.snd).sum tp (c.2 / (cand.map Prod.snd).sum * mp) true 0
      ((c :: l).take (n + 1)) = kept at hpre hsum hne ⊢
    rw [zero_add] at hsum
    have hkept : kept.1.Subperm cand := (hpre.sublist.trans (List.take_sublist _ _)).subperm.trans hsub'
    have hkpos : ∀ d ∈ kept.1, 0 < d.2 := fun d hd => hpos d (hkept.subset hd)
    have hpsum : 0 < (kept.1.map Prod.snd).sum :=
      List.sum_pos _ (fun y hy => by
        obtain ⟨d, hd, rfl⟩ := List.mem_map.mp hy
        exact hkpos d hd) (by simpa using hne)
    rw [if_neg (by simp [hne, hsum, hpsum]), hsum]
    refine isDist_scaled hkpos ?_ hpsum
    obtain ⟨l', hperm, hl'⟩ := hkept
    exact (hperm.map Prod.fst).nodup_iff.mp ((hl'.map Prod.fst).nodup hnodup)

/-! ## The residual -/

theorem IsDist.sum_support {l : List (ℕ × ℝ)} (hl : IsDist l) {s : Finset ℕ} (hs : (l.map Prod.fst).toFinset ⊆ s) :
    ∑ x ∈ s, specDistProb l x = 1 := by
  rw [← Finset.sum_subset hs fun x _ hx => specDistProb_of_notMem (by simpa using hx),
    sum_specDistProb hl.nodup fun _ y => y, ← hl.sum]

section
variable {p q : List (ℕ × ℝ)}

theorem residual_sublist : ((residual p q).map Prod.fst).Sublist (p.map Prod.fst) := by
  have h : (((p.map fun c => (c.1, c.2 - specDistProb q c.1)).filter fun c => 0 < c.2).map Prod.fst).Sublist
      ((p.map fun c => (c.1, c.2 - specDistProb q c.1)).map Prod.fst) := List.filter_sublist.map Prod.fst
  rwa [List.map_map] at h

theorem residual_pos : ∀ c ∈ residual p q, 0 < c.2 := fun c hc => by simpa using (List.mem_filter.mp hc).2

theorem mem_residual (hp : IsDist p) {c : ℕ × ℝ} :
    c ∈ residual p q ↔ 0 < c.2 ∧ c.1 ∈ p.map Prod.fst ∧ c.2 = specDistProb p c.1 - specDistProb q c.1 := by
  rw [residual, List.mem_filter, List.mem_map, decide_eq_true_iff]
  constructor
  · rintro ⟨⟨d, hd, rfl⟩, hpos⟩
    exact ⟨hpos, List.mem_map.mpr ⟨d, hd, rfl⟩, by rw [specDistProb_of_mem hp.nodup hd]⟩
  · rintro ⟨hpos, hmem, hval⟩
    obtain ⟨d, hd, hid⟩ := List.mem_map.mp hmem
    refine ⟨⟨d, hd, Prod.ext hid ?_⟩, hpos⟩
    rw [hval, ← hid, specDistProb_of_mem hp.nodup hd]

theorem residual_prob (hp : IsDist p) (hq : IsDist q) (x : ℕ) :
    specDistProb (residual p q) x = specDistProb p x - min (specDistProb p x) (specDistProb q x) := by
  have hn : ((residual p q).map Prod.fst).Nodup := residual_sublist.nodup hp.nodup
  by_cases hx : x ∈ (residual p q).map Prod.fst
  · obtain ⟨c, hc, rfl⟩ := List.mem_map.mp hx
    obtain ⟨hpos, -, hval⟩ := (mem_residual hp).mp hc
    rw [specDistProb_of_mem hn hc, hval, min_eq_right (by linarith)]
  · rw [specDistProb_of_notMem hx]
    by_cases hlt : specDistProb q x < specDistProb p x
    · have hmem : x ∈ p.map Prod.fst := by
        by_contra hmem
        rw [specDistProb_of_notMem hmem] at hlt
        exact absurd hlt (not_lt.mpr (hq.prob_nonneg x))
      have hres : (x, specDistProb p x - specDistProb q x) ∈ residual p q :=
        (mem_residual hp).mpr ⟨sub_pos.mpr hlt, hmem, rfl⟩
      exact absurd (List.mem_map_of_mem (f := Prod.fst) hres) hx
    · rw [min_eq_left (not_lt.mp hlt), sub_self]

/-- The chance that both distributions give a token at once. -/
theorem residual_sum (hp : IsDist p) (hq : IsDist q) {s : Finset ℕ} (hs : (p.map Prod.fst).toFinset ⊆ s) :
    ((residual p q).map Prod.snd).sum = 1 - ∑ x ∈ s, min (specDistProb p x) (specDistProb q x) := by
  have hsub : ((residual p q).map Prod.fst).toFinset ⊆ s := fun x hx =>
    hs (List.mem_toFinset.mpr (residual_sublist.subset (List.mem_toFinset.mp hx)))
  rw [← hp.sum_support hs, ← Finset.sum_sub_distrib, ← Finset.sum_congr rfl fun x _ => residual_prob hp hq x,
    ← Finset.sum_subset hsub fun x _ hx => specDistProb_of_notMem (by simpa using hx),
    sum_specDistProb (residual_sublist.nodup hp.nodup) fun _ y => y]

theorem residual_sum_pos (h : residual p q ≠ []) : 0 < ((residual p q).map Prod.snd).sum :=
  List.sum_pos _ (fun y hy => by
    obtain ⟨d, hd, rfl⟩ := List.mem_map.mp hy
    exact residual_pos d hd) (by simpa using h)

theorem specDistProb_scaled (l : List (ℕ × ℝ)) (r : ℝ) (x : ℕ) :
    specDistProb (l.map fun c => (c.1, c.2 * r)) x = specDistProb l x * r := by
  induction l with
  | nil => rw [List.map_nil, specDistProb, List.find?_nil, zero_mul]
  | cons c l ih => rw [List.map_cons, specDistProb_cons, specDistProb_cons, ih, ite_mul]

theorem replacement_isDist (hp : IsDist p) : IsDist (replacement p q) := by
  by_cases h : residual p q = []
  · simpa [replacement, h] using hp
  · have hpos := residual_sum_pos h
    simp only [replacement, List.isEmpty_iff, h, not_le.mpr hpos, or_self, if_false]
    exact isDist_scaled residual_pos (residual_sublist.nodup hp.nodup) hpos

/-- The telescoping identity: what the accepted drafts give of a token and what the
    replacements of the rejected ones give add up to what the target gives. -/
theorem accepted_add_replaced (hp : IsDist p) (hq : IsDist q) {s : Finset ℕ} (hps : (p.map Prod.fst).toFinset ⊆ s)
    (x : ℕ) :
    min (specDistProb p x) (specDistProb q x) +
      (1 - ∑ y ∈ s, min (specDistProb p y) (specDistProb q y)) * specDistProb (replacement p q) x =
        specDistProb p x := by
  have hsum := residual_sum hp hq hps
  have hprob := residual_prob hp hq x
  rw [← hsum]
  by_cases h : residual p q = []
  · rw [h, List.map_nil, List.sum_nil, zero_mul, add_zero]
    rw [h, specDistProb_of_notMem (by simp)] at hprob
    linarith
  · have hpos := residual_sum_pos h
    simp only [replacement, List.isEmpty_iff, h, not_le.mpr hpos, or_self, if_false]
    rw [specDistProb_scaled, hprob]
    field_simp
    ring

end

/-! ## One step -/

/-- Three numbers that are still to be drawn. A step and the draw of its draft use no more. -/
abbrev Draws := ℝ × ℝ × ℝ

def draw3 (s : Draws) : ℝ × Draws := (s.1, s.2.1, s.2.2, 0)

noncomputable def draws : Measure Draws := uniform.prod (uniform.prod uniform)

instance : IsProbabilityMeasure draws := inferInstanceAs (IsProbabilityMeasure (uniform.prod (uniform.prod uniform)))

/-- A draft drawn from `q`, and the step that accepts or replaces it. -/
noncomputable def specRound (pLogits : List (Logit ℝ)) (q : List (ℕ × ℝ)) (temperature : ℝ) (topK : ℤ)
    (topP minP : ℝ) (s : Draws) : ℤ × Bool :=
  let d := specSampleFromDist draw3 q s
  (specSampleStep Real.exp draw3 pLogits q d.1 temperature topK topP minP d.2).1

theorem pick_mem {l : List (ℕ × ℝ)} (hl : l ≠ []) : ∀ (r : ℝ) (last : ℕ), pick r last l ∈ l.map Prod.fst := by
  induction l with
  | nil => exact absurd rfl hl
  | cons c l ih =>
    intro r last
    rw [pick]
    split_ifs with h
    · simp
    · by_cases hnil : l = []
      · simp [hnil, pick]
      · exact List.mem_cons_of_mem _ (ih hnil _ _)

/-- The numbers that accept the draft `d`. -/
def acceptSet (p q : List (ℕ × ℝ)) (d : ℕ) : Set ℝ := {v | v * specDistProb q d ≤ specDistProb p d}

theorem measurableSet_acceptSet (p q : List (ℕ × ℝ)) (d : ℕ) : MeasurableSet (acceptSet p q d) :=
  measurableSet_le (measurable_id.mul_const _) measurable_const

theorem acceptSet_law {p q : List (ℕ × ℝ)} (hp : IsDist p) {d : ℕ} (hd : 0 < specDistProb q d) :
    specDistProb q d * uniform.real (acceptSet p q d) = min (specDistProb p d) (specDistProb q d) := by
  have hset : acceptSet p q d = Iic (specDistProb p d / specDistProb q d) := by
    ext v
    exact (le_div_iff₀ hd).symm
  rw [hset, uniform_Iic (div_nonneg (hp.prob_nonneg d) hd.le), mul_min_of_nonneg _ _ hd.le, mul_one,
    mul_div_cancel₀ _ hd.ne']

/-- The law of what follows the draft, by the draft. -/
theorem draws_law {q : List (ℕ × ℝ)} (hq : IsDist q) {t : ℕ → Set (ℝ × ℝ)} (ht : ∀ d, MeasurableSet (t d)) :
    draws.real {s | s.2 ∈ t (pick s.1 0 q)} =
      ∑ d ∈ (q.map Prod.fst).toFinset, specDistProb q d * (uniform.prod uniform).real (t d) := by
  have hset : {s : Draws | s.2 ∈ t (pick s.1 0 q)} =
      ⋃ d ∈ (q.map Prod.fst).toFinset, {u : ℝ | pick u 0 q = d} ×ˢ t d := by
    ext s
    simp only [mem_ofPred_eq, mem_iUnion, mem_prod, List.mem_toFinset, exists_prop]
    constructor
    · exact fun h => ⟨pick s.1 0 q, pick_mem hq.ne_nil _ _, rfl, h⟩
    · rintro ⟨d, -, rfl, h⟩
      exact h
  rw [hset, measureReal_biUnion_finset]
  · refine Finset.sum_congr rfl fun d _ => ?_
    rw [draws, measureReal_prod_prod, (hq.law d).2]
  · intro d _ e _ hde
    refine Set.disjoint_left.mpr fun s hs hs' => hde ?_
    exact hs.1.symm.trans hs'.1
  · exact fun d _ => (hq.law d).1.prod (ht d)

section
variable {pLogits : List (Logit ℝ)} {p q : List (ℕ × ℝ)} {temperature topP minP : ℝ} {topK : ℤ}

theorem IsDist.prob_pos {l : List (ℕ × ℝ)} (hl : IsDist l) {x : ℕ} (hx : x ∈ l.map Prod.fst) :
    0 < specDistProb l x := by
  obtain ⟨c, hc, rfl⟩ := List.mem_map.mp hx
  rw [specDistProb_of_mem hl.nodup hc]
  exact hl.pos c hc

theorem specRound_eq (hp : specBuildTruncDist Real.exp pLogits temperature topK topP minP = p) (hdist : IsDist p)
    (hq : IsDist q) (s : Draws) :
    specRound pLogits q temperature topK topP minP s =
      if s.2.1 * specDistProb q (pick s.1 0 q) ≤ specDistProb p (pick s.1 0 q) then ((pick s.1 0 q : ℤ), true)
      else ((pick s.2.2 0 (replacement p q) : ℤ), false) := by
  have hpos := hq.prob_pos (pick_mem hq.ne_nil s.1 0)
  have hrep := (replacement_isDist (q := q) hdist).ne_nil
  simp only [specRound, specSampleFromDist, List.isEmpty_iff, hq.ne_nil, if_false, draw3, specSampleStep, hp,
    hdist.ne_nil, not_le.mpr hpos, false_or, hrep]
  split_ifs <;> rfl

/-- The acceptance probability. -/
theorem specRound_accept (hp : specBuildTruncDist Real.exp pLogits temperature topK topP minP = p) (hdist : IsDist p)
    (hq : IsDist q) :
    draws.real {s | (specRound pLogits q temperature topK topP minP s).2 = true} =
      ∑ d ∈ (q.map Prod.fst).toFinset, min (specDistProb p d) (specDistProb q d) := by
  have hset : {s : Draws | (specRound pLogits q temperature topK topP minP s).2 = true} =
      {s | s.2 ∈ acceptSet p q (pick s.1 0 q) ×ˢ univ} := by
    ext s
    rw [mem_ofPred_eq, specRound_eq hp hdist hq, mem_ofPred_eq, mem_prod, acceptSet, mem_ofPred_eq]
    split_ifs with h
    · simp [h]
    · simp [h]
  rw [hset, draws_law hq fun d => (measurableSet_acceptSet p q d).prod MeasurableSet.univ]
  refine Finset.sum_congr rfl fun d hd => ?_
  rw [measureReal_prod_prod, probReal_univ, mul_one, acceptSet_law hdist (hq.prob_pos (List.mem_toFinset.mp hd))]

theorem min_prob_of_notMem (hp : IsDist p) {d : ℕ} (hd : d ∉ q.map Prod.fst) :
    min (specDistProb p d) (specDistProb q d) = 0 := by
  rw [specDistProb_of_notMem hd, min_eq_right (hp.prob_nonneg d)]

/-- What is left of a draft `d` for the token `x`: it is accepted and is `x`, or `x` replaces it. -/
theorem draft_law (hdist : IsDist p) (hq : IsDist q) (x : ℕ) {d : ℕ} (hd : d ∈ q.map Prod.fst) :
    specDistProb q d * (uniform.prod uniform).real
        (acceptSet p q d ×ˢ {_w | d = x} ∪ (acceptSet p q d)ᶜ ×ˢ {w | pick w 0 (replacement p q) = x}) =
      (if d = x then min (specDistProb p d) (specDistProb q d) else 0) +
        (specDistProb q d - min (specDistProb p d) (specDistProb q d)) * specDistProb (replacement p q) x := by
  have hmeas := measurableSet_acceptSet p q d
  obtain ⟨hrmeas, hrlaw⟩ := (replacement_isDist (q := q) hdist).law x
  have hdisj : Disjoint (acceptSet p q d ×ˢ {_w : ℝ | d = x})
      ((acceptSet p q d)ᶜ ×ˢ {w | pick w 0 (replacement p q) = x}) :=
    Set.disjoint_left.mpr fun s hs hs' => hs'.1 hs.1
  have hkept : uniform.real {_w : ℝ | d = x} = if d = x then 1 else 0 := by
    split_ifs with h
    · simp [h]
    · simp [h]
  rw [measureReal_union hdisj (hmeas.compl.prod hrmeas), measureReal_prod_prod, measureReal_prod_prod, hkept, hrlaw,
    probReal_compl_eq_one_sub hmeas, ← acceptSet_law hdist (hq.prob_pos hd)]
  split_ifs with h
  · ring
  · ring

/-- The token of a step has the distribution of the target. -/
theorem specRound_token (hp : specBuildTruncDist Real.exp pLogits temperature topK topP minP = p) (hdist : IsDist p)
    (hq : IsDist q) (x : ℕ) :
    draws.real {s | (specRound pLogits q temperature topK topP minP s).1 = x} = specDistProb p x := by
  have hset : {s : Draws | (specRound pLogits q temperature topK topP minP s).1 = x} =
      {s | s.2 ∈ acceptSet p q (pick s.1 0 q) ×ˢ {_w : ℝ | pick s.1 0 q = x} ∪
        (acceptSet p q (pick s.1 0 q))ᶜ ×ˢ {w | pick w 0 (replacement p q) = x}} := by
    ext s
    rw [mem_ofPred_eq, specRound_eq hp hdist hq, mem_ofPred_eq, mem_union]
    simp only [mem_prod, mem_compl_iff, acceptSet, mem_ofPred_eq]
    split_ifs with h
    · simp [h]
    · simp [h]
  have hmeas : ∀ d, MeasurableSet (acceptSet p q d ×ˢ {_w : ℝ | d = x} ∪
      (acceptSet p q d)ᶜ ×ˢ {w | pick w 0 (replacement p q) = x}) := fun d =>
    ((measurableSet_acceptSet p q d).prod (MeasurableSet.const _)).union
      ((measurableSet_acceptSet p q d).compl.prod ((replacement_isDist hdist).law x).1)
  rw [hset, draws_law hq hmeas]
  rw [Finset.sum_congr rfl fun d hd => draft_law hdist hq x (List.mem_toFinset.mp hd), Finset.sum_add_distrib,
    ← Finset.sum_mul, Finset.sum_sub_distrib, hq.sum_support subset_rfl, Finset.sum_ite_eq' _ x]
  have hall : ∑ d ∈ (q.map Prod.fst).toFinset, min (specDistProb p d) (specDistProb q d) =
      ∑ d ∈ (p.map Prod.fst).toFinset ∪ (q.map Prod.fst).toFinset, min (specDistProb p d) (specDistProb q d) :=
    Finset.sum_subset Finset.subset_union_right fun d _ hd => min_prob_of_notMem hdist (by simpa using hd)
  have htele := accepted_add_replaced hdist hq
    (Finset.subset_union_left : _ ⊆ (p.map Prod.fst).toFinset ∪ (q.map Prod.fst).toFinset) x
  rw [hall]
  refine Eq.trans ?_ htele
  split_ifs with hx
  · rfl
  · rw [min_prob_of_notMem hdist (by simpa using hx)]

/-- A draft that a number below one rejects has more of `q` than of `p`, so that `p` has more elsewhere. -/
theorem residual_ne_nil (hp : IsDist p) (hq : IsDist q) {d : ℕ} (h : specDistProb p d < specDistProb q d) :
    residual p q ≠ [] := by
  intro hnil
  have hle : ∀ x : ℕ, specDistProb p x ≤ specDistProb q x := by
    intro x
    have hx := residual_prob hp hq x
    rw [hnil, specDistProb_of_notMem (by simp)] at hx
    exact min_eq_left_iff.mp (by linarith)
  have hd : d ∈ (p.map Prod.fst).toFinset ∪ (q.map Prod.fst).toFinset := by
    refine Finset.mem_union_right _ (List.mem_toFinset.mpr ?_)
    by_contra hd
    rw [specDistProb_of_notMem hd] at h
    exact absurd h (not_lt.mpr (hp.prob_nonneg d))
  have hlt := Finset.sum_lt_sum (fun x _ => hle x) ⟨d, hd, h⟩
  rw [hp.sum_support Finset.subset_union_left, hq.sum_support Finset.subset_union_right] at hlt
  exact lt_irrefl _ hlt

theorem specDistProb_negative (l : List (ℕ × ℝ)) {x : ℤ} (hx : x < 0) : specDistProb l x = 0 := by
  have hnone : l.find? (fun c => decide ((c.1 : ℤ) = x)) = none :=
    List.find?_eq_none.mpr fun c _ => by simpa using (by omega : ¬(c.1 : ℤ) = x)
  rw [specDistProb, hnone]

end

theorem specRound_preserves (pLogits qLogits : List (Logit ℝ)) (temperature topP minP : ℝ) (topK : ℤ)
    (temperature' topP' minP' : ℝ) (topK' : ℤ) (p q : List (ℕ × ℝ))
    (hp : specBuildTruncDist Real.exp pLogits temperature topK topP minP = p)
    (hq : specBuildTruncDist Real.exp qLogits temperature' topK' topP' minP' = q) (hpne : p ≠ []) (hqne : q ≠ []) :
    (∀ x : ℤ, draws.real {s | (specRound pLogits q temperature topK topP minP s).1 = x} = specDistProb p x) ∧
      draws.real {s | (specRound pLogits q temperature topK topP minP s).2 = true} =
        ∑ d ∈ (p.map Prod.fst).toFinset ∪ (q.map Prod.fst).toFinset, min (specDistProb p d) (specDistProb q d) ∧
      ∀ s : Draws, s.2.1 ∈ Ico 0 1 → (specRound pLogits q temperature topK topP minP s).2 = false →
        residual p q ≠ [] ∧ 0 < ((residual p q).map Prod.snd).sum := by
  have hdist : IsDist p := hp ▸ specBuildTruncDist_isDist _ _ _ _ _ (hp ▸ hpne)
  have hqdist : IsDist q := hq ▸ specBuildTruncDist_isDist _ _ _ _ _ (hq ▸ hqne)
  refine ⟨?_, ?_, ?_⟩
  · intro x
    rcases lt_or_ge x 0 with hx | hx
    · have hset : {s : Draws | (specRound pLogits q temperature topK topP minP s).1 = x} = ∅ := by
        ext s
        rw [mem_ofPred_eq, specRound_eq hp hdist hqdist, mem_empty_iff_false, iff_false]
        split_ifs
        · simp only
          omega
        · simp only
          omega
      rw [hset, measureReal_empty, specDistProb_negative p hx]
    · obtain ⟨n, rfl⟩ := Int.eq_ofNat_of_zero_le hx
      exact specRound_token hp hdist hqdist n
  · rw [specRound_accept hp hdist hqdist]
    exact Finset.sum_subset Finset.subset_union_right fun d _ hd => min_prob_of_notMem hdist (by simpa using hd)
  · intro s hs hrej
    rw [specRound_eq hp hdist hqdist] at hrej
    have hlt : specDistProb p (pick s.1 0 q) < specDistProb q (pick s.1 0 q) := by
      split_ifs at hrej with h
      exact (not_le.mp h).trans_le (mul_le_of_le_one_left (hqdist.prob_nonneg _) hs.2.le)
    have hne := residual_ne_nil hdist hqdist hlt
    exact ⟨hne, residual_sum_pos hne⟩

theorem specBuildTruncDist_single : specBuildTruncDist Real.exp [.fin 0] 1 0 1 0 = [(0, 1)] := by
  simp [specBuildTruncDist, maxLogit, finites, candidates, insertBounded, nucleus, negInf, specNucleusCap]

theorem specRound_preserves_single :
    specBuildTruncDist Real.exp [.fin 0] 1 0 1 0 = [(0, 1)] ∧
      draws.real {s | (specRound [.fin 0] [(0, 1)] 1 0 1 0 s).1 = 0} = specDistProb [(0, (1 : ℝ))] 0 :=
  ⟨specBuildTruncDist_single, (specRound_preserves [.fin 0] [.fin 0] 1 1 0 0 1 1 0 0 [(0, 1)] [(0, 1)]
    specBuildTruncDist_single specBuildTruncDist_single (List.cons_ne_nil _ _) (List.cons_ne_nil _ _)).1 0⟩

/-- Without a finite logit there is no target, and the token is drawn from the draft. -/
theorem specRound_no_target :
    specBuildTruncDist Real.exp [.fin 0] 1 0 1 0 = [(0, 1)] ∧
      specDistProb (specBuildTruncDist Real.exp [.nan] 1 0 1 0) 0 = 0 ∧
      draws.real {s | (specRound [.nan] [(0, 1)] 1 0 1 0 s).1 = 0} = 1 := by
  have hnone : specBuildTruncDist Real.exp [.nan] 1 0 1 0 = [] := by
    simp [specBuildTruncDist, maxLogit, finites]
  have htoken : ∀ s, (specRound [.nan] [(0, 1)] 1 0 1 0 s).1 = 0 := by
    intro s
    simp only [specRound, specSampleStep, hnone]
    simp [specSampleFromDist, pick]
  refine ⟨specBuildTruncDist_single, by rw [hnone, specDistProb, List.find?_nil], ?_⟩
  simp only [htoken, ofPred_true, probReal_univ]

end Ds4.Sampling
