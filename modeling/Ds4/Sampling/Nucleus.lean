import Mathlib.Analysis.SpecialFunctions.Exp
import Ds4.Sampling.Sampler

/- The bounded nucleus and the full sort.

   The list of `sampleFullVocab` is the front of the sorted candidates
   (`topk_front`). A cut that ends within a front of a list is the cut of the
   list (`nucleus_front`), and where it does not end there the sampler falls back
   to the full sort itself.

   PROVED: in exact arithmetic, for every row without equal finite entries,
   `sampleFullVocab` and `sampleFullVocabExact` return one token and leave the
   random source in one state, if the row has a finite entry or no positive
   infinity (`sampleFullVocab_exact`); without a finite entry the first returns
   `sampleArgmax`, which is the first infinity (`sampleFullVocab_infinite`). -/
namespace Ds4.Sampling

section
variable {K σ : Type} [Field K] [LinearOrder K]

/-- A cut that ends within the front of a list is the cut of the list. -/
theorem nucleus_front {sum topP minProb : K} (tail : List (Nat × K)) : ∀ (l : List (Nat × K)) (first : Bool) (acc : K),
    acc / sum < topP →
    ¬((nucleus sum topP minProb first acc l).1.length = l.length ∧
      (nucleus sum topP minProb first acc l).2 / sum < topP) →
    nucleus sum topP minProb first acc (l ++ tail) = nucleus sum topP minProb first acc l
  | [], first, acc, hacc, h => absurd ⟨rfl, hacc⟩ h
  | c :: l, first, acc, hacc, h => by
    rw [List.cons_append, nucleus, nucleus]
    rw [nucleus] at h
    split_ifs at h ⊢ with h1 h2
    · rfl
    · rfl
    · rw [nucleus_front tail l false (acc + c.2) (not_le.mp h2) fun h' => h ⟨by simpa using h'.1, h'.2⟩]

theorem minProb_front (minP sum : K) {l : List (Nat × K)} (hl : l ≠ []) (tail : List (Nat × K)) :
    minProb minP sum (l ++ tail) = minProb minP sum l := by
  cases l with
  | nil => exact absurd rfl hl
  | cons c l => rfl

end

section
variable {K σ : Type} [Field K] [LinearOrder K] [IsStrictOrderedRing K] {expf : K → K} {temperature m : K}

/-- What is drawn from: tokens with their weights. -/
def weights (expf : K → K) (temperature m : K) (logits : List (Logit K)) : List (Nat × K) :=
  (candidates expf temperature m logits).map fun c => (c.id, c.prob)

theorem prob_lt (hexp : StrictMono expf) (ht : 0 < temperature) {v w : K} (h : v < w) :
    expf ((v - m) / temperature) < expf ((w - m) / temperature) :=
  hexp (div_lt_div_of_pos_right (sub_lt_sub_right h m) ht)

theorem prob_inj (hexp : StrictMono expf) (ht : 0 < temperature) :
    Function.Injective fun v => expf ((v - m) / temperature) :=
  StrictMono.injective fun _ _ h => prob_lt hexp ht h

omit [LinearOrder K] [IsStrictOrderedRing K] in
theorem weights_snd (logits : List (Logit K)) :
    (weights expf temperature m logits).map Prod.snd =
      ((finites logits).map Prod.snd).map fun v => expf ((v - m) / temperature) := by
  simp [weights, candidates]

theorem weights_nodup (hexp : StrictMono expf) (ht : 0 < temperature) {logits : List (Logit K)}
    (h : ((finites logits).map Prod.snd).Nodup) : ((weights expf temperature m logits).map Prod.snd).Nodup := by
  rw [weights_snd]
  exact h.map (prob_inj hexp ht)

/-- The list of the bounded sampler is the front of the sorted candidates, and short of
    them only when it is full. -/
theorem topk_front (hexp : StrictMono expf) (ht : 0 < temperature) {logits : List (Logit K)}
    (h : ((finites logits).map Prod.snd).Nodup) (cap : Nat) :
    ∃ tail, ((candidates expf temperature m logits).insertionSort fun a b => b.logit ≤ a.logit).map (fun c => (c.id, c.prob)) =
      ((weights expf temperature m logits).foldl (insertBounded Prod.snd cap) []).reverse ++ tail := by
  obtain ⟨low, hsort, hperm, -, -⟩ := largest_of_foldl cap (weights_nodup (m := m) hexp ht h)
  refine ⟨low.reverse, ?_⟩
  rw [← List.reverse_append]
  have hle : (((candidates expf temperature m logits).insertionSort fun a b => b.logit ≤ a.logit).map
      fun c => (c.id, c.prob)).Pairwise fun a b => b.2 ≤ a.2 := by
    have : Std.Total fun a b : Candidate K => b.logit ≤ a.logit := ⟨fun a b => le_total _ _⟩
    have : IsTrans (Candidate K) fun a b => b.logit ≤ a.logit := ⟨fun _ _ _ h h' => le_trans h' h⟩
    rw [List.pairwise_map]
    have hprob : ∀ c ∈ candidates expf temperature m logits, c.prob = expf ((c.logit - m) / temperature) := by
      intro c hc
      obtain ⟨x, -, rfl⟩ := List.mem_map.mp hc
      rfl
    refine (List.pairwise_insertionSort (fun a b : Candidate K => b.logit ≤ a.logit) _).imp_of_mem fun {a b} ha hb hab => ?_
    rw [hprob a ((List.mem_insertionSort _).mp ha), hprob b ((List.mem_insertionSort _).mp hb)]
    exact hexp.monotone (div_le_div_of_nonneg_right (sub_le_sub_right hab m) ht.le)
  have hrev : (low ++ (weights expf temperature m logits).foldl (insertBounded Prod.snd cap) []).reverse.Pairwise
      fun a b => b.2 ≤ a.2 := List.pairwise_reverse.mpr (hsort.imp fun h => h.le)
  have hp : (((candidates expf temperature m logits).insertionSort fun a b => b.logit ≤ a.logit).map
      fun c => (c.id, c.prob)).Perm (weights expf temperature m logits) := (List.perm_insertionSort _ _).map _
  refine List.Perm.eq_of_pairwise (fun a b ha hb hab hba => ?_) hle hrev
    (hp.trans (hperm.symm.trans (List.reverse_perm _).symm))
  refine List.inj_on_of_nodup_map (weights_nodup (m := m) hexp ht h) (hp.mem_iff.mp ha) ?_ (le_antisymm hba hab)
  exact hperm.mem_iff.mp (List.mem_reverse.mp hb)

theorem topk_ne_nil (hexp : StrictMono expf) (ht : 0 < temperature) {logits : List (Logit K)}
    (h : ((finites logits).map Prod.snd).Nodup) (hne : finites logits ≠ []) (cap : Nat) (hcap : cap ≠ 0) :
    (weights expf temperature m logits).foldl (insertBounded Prod.snd cap) [] ≠ [] := by
  obtain ⟨low, -, hperm, -, hfull⟩ := largest_of_foldl cap (weights_nodup (m := m) hexp ht h)
  intro hnil
  rw [hnil] at hperm hfull
  rw [List.append_nil] at hperm
  have hlow : low ≠ [] := by
    rintro rfl
    have := hperm.symm.eq_nil
    simp [weights, candidates, hne] at this
  exact hcap (hfull hlow).symm

theorem weights_sum_pos (hpos : ∀ x, 0 < expf x) {logits : List (Logit K)} (hne : finites logits ≠ []) :
    0 < ((weights expf temperature m logits).map Prod.snd).sum := by
  rw [weights_snd, List.map_map]
  refine List.sum_pos _ (fun x hx => ?_) (by simpa using hne)
  obtain ⟨c, -, rfl⟩ := List.mem_map.mp hx
  exact hpos _

theorem sampleFullVocab_finite (hexp : StrictMono expf) (hpos : ∀ x, 0 < expf x) (draw : σ → K × σ)
    {logits : List (Logit K)} (h : ((finites logits).map Prod.snd).Nodup) (hne : finites logits ≠ [])
    (ht : 0 < temperature) {topP : K} (htop : 0 < topP) (htop1 : topP < 1) (minP : K) (rng : σ) :
    sampleFullVocab expf draw logits temperature topP minP rng =
      sampleFullVocabExact expf draw logits temperature topP minP (maxLogit logits).1 (maxLogit logits).2 rng := by
  have hempty : (finites logits).isEmpty = false := by simpa using hne
  obtain ⟨tail, hfront⟩ := topk_front (m := (maxLogit logits).1) hexp ht h sampleTopk
  have htopk := topk_ne_nil (m := (maxLogit logits).1) hexp ht h hne sampleTopk (by decide)
  have hsum : 0 < ((weights expf temperature (maxLogit logits).1 logits).map Prod.snd).sum := weights_sum_pos hpos hne
  have hprobs : ((candidates expf temperature (maxLogit logits).1 logits).map (·.prob)).sum =
      ((weights expf temperature (maxLogit logits).1 logits).map Prod.snd).sum := by
    simp [weights, Function.comp_def]
  have hweights : (candidates expf temperature (maxLogit logits).1 logits).map (fun c => (c.id, c.prob)) =
      weights expf temperature (maxLogit logits).1 logits := rfl
  simp only [sampleFullVocab, hempty, Bool.false_eq_true, if_false, not_le.mpr htop1, hweights]
  rw [if_neg (by simpa [not_le.mpr hsum] using htopk)]
  split_ifs with hfall hnil
  · rfl
  all_goals
    simp only [sampleFullVocabExact, hprobs, not_le.mpr hsum, if_false, hfront,
      minProb_front minP _ (List.reverse_ne_nil_iff.mpr htopk) tail]
    rw [nucleus_front tail _ true 0 (by simpa using htop) hfall]
  · rw [if_pos hnil]
  · rw [if_neg hnil]

omit [IsStrictOrderedRing K] in
/-- Without a finite entry the full sort returns what it was given. -/
theorem sampleFullVocab_infinite (expf : K → K) (temperature : K) (draw : σ → K × σ) {logits : List (Logit K)} (hnone : finites logits = [])
    (topP minP : K) (rng : σ) :
    sampleFullVocab expf draw logits temperature topP minP rng = (sampleArgmax logits, rng) ∧
      sampleFullVocabExact expf draw logits temperature topP minP (maxLogit logits).1 (maxLogit logits).2 rng = (0, rng) := by
  have hmax : maxLogit logits = (negInf, 0) := by rw [maxLogit, hnone, List.foldl_nil]
  constructor
  · simp [sampleFullVocab, hnone]
  · simp [sampleFullVocabExact, candidates, hnone, hmax]

omit [IsStrictOrderedRing K] in
theorem sampleArgmax_zero {logits : List (Logit K)} (hnone : finites logits = []) (hinf : .posInf ∉ logits) :
    sampleArgmax logits = 0 := by
  have hgt : ∀ l ∈ logits, l.gt (.fin (negInf : K)) = false := by
    intro l hl
    cases l with
    | nan => rfl
    | negInf => rfl
    | posInf => exact absurd hl hinf
    | fin v =>
      obtain ⟨i, hi⟩ := List.getElem?_of_mem hl
      have hmem : (i, v) ∈ finites logits :=
        List.mem_filterMap.mpr ⟨(.fin v, i), List.mk_mem_zipIdx_iff_getElem?.mpr hi, rfl⟩
      rw [hnone] at hmem
      cases hmem
  have hfold : ∀ l : List (Logit K × Nat), (∀ c ∈ l, c.1.gt (.fin (negInf : K)) = false) →
      l.foldl (fun (b : Nat × Logit K) c => if c.1.gt b.2 then (c.2, c.1) else b) (0, .fin negInf) = (0, .fin negInf) := by
    intro l
    induction l with
    | nil => exact fun _ => rfl
    | cons c l ih =>
      intro h
      rw [List.foldl_cons, h c (by simp), if_neg Bool.false_ne_true]
      exact ih fun d hd => h d (by simp [hd])
  rw [sampleArgmax, hfold _ fun c hc => hgt c.1 (List.fst_mem_of_mem_zipIdx hc)]

end

theorem sampleFullVocab_exact {σ : Type} (draw : σ → ℝ × σ) (logits : List (Logit ℝ))
    (h : ((finites logits).map Prod.snd).Nodup) (hsome : finites logits ≠ [] ∨ .posInf ∉ logits) {temperature : ℝ}
    (ht : 0 < temperature) {topP : ℝ} (htop : 0 < topP) (htop1 : topP < 1) (minP : ℝ) (rng : σ) :
    sampleFullVocab Real.exp draw logits temperature topP minP rng =
      sampleFullVocabExact Real.exp draw logits temperature topP minP (maxLogit logits).1 (maxLogit logits).2 rng := by
  by_cases hne : finites logits = []
  · obtain ⟨hfull, hexact⟩ := sampleFullVocab_infinite Real.exp temperature draw hne topP minP rng
    rw [hfull, hexact, sampleArgmax_zero hne (hsome.resolve_left fun h => h hne)]
  · exact sampleFullVocab_finite Real.exp_strictMono Real.exp_pos draw h hne ht htop htop1 minP rng

theorem sampleFullVocab_exact_sample :
    sampleFullVocab Real.exp sampleRngF32 [.fin 1, .nan, .fin 2] 1 (1 / 2) 0 7 =
      sampleFullVocabExact Real.exp sampleRngF32 [.fin 1, .nan, .fin 2] 1 (1 / 2) 0
        (maxLogit [.fin (1 : ℝ), .nan, .fin 2]).1 (maxLogit [.fin (1 : ℝ), .nan, .fin 2]).2 7 :=
  sampleFullVocab_exact sampleRngF32 [.fin 1, .nan, .fin 2] (by simp [finites]) (Or.inl (by simp [finites])) one_pos
    (by norm_num) (by norm_num) 0 7

/-- The infinity is not among the candidates of the full sort, and is the largest to `sampleArgmax`. -/
theorem sampleFullVocab_infinity :
    sampleFullVocab Real.exp sampleRngF32 [.nan, .posInf] 1 (1 / 2) 0 7 = (1, 7) ∧
      sampleFullVocabExact Real.exp sampleRngF32 [.nan, .posInf] 1 (1 / 2) 0
        (maxLogit [.nan, (.posInf : Logit ℝ)]).1 (maxLogit [.nan, (.posInf : Logit ℝ)]).2 7 = (0, 7) := by
  have hnone : finites [.nan, (.posInf : Logit ℝ)] = [] := rfl
  obtain ⟨hfull, hexact⟩ := sampleFullVocab_infinite Real.exp 1 sampleRngF32 hnone (1 / 2) 0 7
  exact ⟨hfull, hexact⟩

end Ds4.Sampling
