import Mathlib.Algebra.Order.Field.Basic
import Ds4.BoundedSort

/- The token samplers of ds4.c, in exact arithmetic.

   Correspondence (C ↔ Lean):
     `sample_argmax`                  ↔ `sampleArgmax`
     `sample_rng_next`, `sample_rng_f32` ↔ `sampleRngNext`, `sampleRngF32`
     `sample_full_vocab_exact`        ↔ `sampleFullVocabExact`
     `sample_full_vocab`              ↔ `sampleFullVocab`
     `sample_top_p_min_p`             ↔ `sampleTopPMinP`
     `sample_argmax_excluding`        ↔ `sampleArgmaxExcluding`
     `sample_top_p_min_p_excluding`   ↔ `sampleTopPMinPExcluding`
     `spec_build_trunc_dist`          ↔ `specBuildTruncDist`
     `spec_sample_from_dist`, `spec_dist_prob` ↔ `specSampleFromDist`, `specDistProb`
     `spec_sample_step`               ↔ `specSampleStep`
   `K` is the field the floats stand for, `expf` the exponential, and `draw` the
   random source, a function of its state. A loop that skips what is not finite
   is a fold over `finites`. A list kept by insertion (`insertBounded`) is written
   from its last entry on, as the inner loop walks it. -/
namespace Ds4.Sampling

/-- A float of a logit row. -/
inductive Logit (K : Type) where
  | nan
  | negInf
  | fin (v : K)
  | posInf
  deriving DecidableEq, Repr

section
variable {K σ : Type} [Field K] [LinearOrder K]

/-- `a > b`, which no NaN is part of. -/
def Logit.gt : Logit K → Logit K → Bool
  | .nan, _ | _, .nan => false
  | .posInf, .posInf => false
  | .posInf, _ => true
  | .negInf, _ => false
  | .fin _, .posInf => false
  | .fin _, .negInf => true
  | .fin a, .fin b => b < a

/-- `DS4_NEG_INF`, which is a finite number. -/
def negInf : K := -10 ^ 30

def sampleArgmax (logits : List (Logit K)) : Nat :=
  (logits.zipIdx.foldl (fun (b : Nat × Logit K) c => if c.1.gt b.2 then (c.2, c.1) else b) (0, .fin negInf)).1

/-- The finite entries, each with its token. -/
def finites (logits : List (Logit K)) : List (Nat × K) :=
  logits.zipIdx.filterMap fun c =>
    match c.1 with
    | .fin v => some (c.2, v)
    | _ => none

/-! ## The random source -/

def sampleRngNext (state : UInt64) : UInt64 × UInt64 :=
  let x := if state = 0 then 0x9e3779b97f4a7c15 else state
  let x := x ^^^ (x >>> 12)
  let x := x ^^^ (x <<< 25)
  let x := x ^^^ (x >>> 27)
  (x * 0x2545f4914f6cdd1d, x)

def sampleRngF32 (state : UInt64) : K × UInt64 :=
  let r := sampleRngNext state
  (((r.1 >>> 40 &&& 0xffffff).toNat : K) / 16777216, r.2)

/-! ## Parts the samplers share -/

/-- `sample_candidate`. -/
structure Candidate (K : Type) where
  id : Nat
  logit : K
  prob : K

def candidates (expf : K → K) (temperature maxLogit : K) (logits : List (Logit K)) : List (Candidate K) :=
  (finites logits).map fun c => ⟨c.1, c.2, expf ((c.2 - maxLogit) / temperature)⟩

/-- The largest finite logit and its token. -/
def maxLogit (logits : List (Logit K)) : K × Nat :=
  (finites logits).foldl (fun b c => if b.1 < c.2 then (c.2, c.1) else b) (negInf, 0)

/-- The cut: what is kept of `l` and the sum of its weights. After the first one
    an entry below `minProb` ends it, and so does the entry that reaches `topP`. -/
def nucleus (sum topP minProb : K) : Bool → K → List (Nat × K) → List (Nat × K) × K
  | _, filteredSum, [] => ([], filteredSum)
  | first, filteredSum, c :: l =>
    if ¬first ∧ c.2 / sum < minProb then ([], filteredSum)
    else if topP ≤ (filteredSum + c.2) / sum then ([c], filteredSum + c.2)
    else
      let r := nucleus sum topP minProb false (filteredSum + c.2) l
      (c :: r.1, r.2)

/-- `r -= prob` until it is used up; `last` is the entry before. -/
def pick (r : K) (last : Nat) : List (Nat × K) → Nat
  | [] => last
  | c :: l => if r - c.2 ≤ 0 then c.1 else pick (r - c.2) c.1 l

/-- Both ends of a draw from a cut list. -/
def drawFrom (draw : σ → K × σ) (filtered : List (Nat × K) × K) (rng : σ) : Nat × σ :=
  let u := draw rng
  (pick (u.1 * filtered.2) 0 filtered.1, u.2)

def minProb (minP sum : K) (l : List (Nat × K)) : K :=
  (l.head?.map Prod.snd).getD 0 / sum * if 0 < minP then minP else 0

/-! ## The samplers -/

def sampleFullVocabExact (expf : K → K) (draw : σ → K × σ) (logits : List (Logit K)) (temperature topP minP : K)
    (maxLogit : K) (best : Nat) (rng : σ) : Nat × σ :=
  let cand := candidates expf temperature maxLogit logits
  let sum := (cand.map (·.prob)).sum
  if sum ≤ 0 then (best, rng)
  else
    let sorted := (cand.insertionSort fun a b => b.logit ≤ a.logit).map fun c => (c.id, c.prob)
    let filtered := nucleus sum topP (minProb minP sum sorted) true 0 sorted
    if filtered.1.isEmpty then (best, rng) else drawFrom draw filtered rng

/-- `SAMPLE_TOPK`. -/
def sampleTopk : Nat := 1024

/-- The part of `sample_full_vocab` for `top_p >= 1`: no list is kept. -/
def sampleUncut (expf : K → K) (draw : σ → K × σ) (logits : List (Logit K)) (temperature minP : K)
    (maxLogit : K) (best : Nat) (rng : σ) : Nat × σ :=
  let minRel := if 0 < minP then minP else 0
  let kept := ((candidates expf temperature maxLogit logits).filter fun c => ¬c.prob < minRel).map fun c => (c.id, c.prob)
  let sum := (kept.map Prod.snd).sum
  if sum ≤ 0 then (best, rng)
  else
    let u := draw rng
    (uncut best (u.1 * sum) kept, u.2)
where
  uncut (best : Nat) (r : K) : List (Nat × K) → Nat
    | [] => best
    | c :: l => if r - c.2 ≤ 0 then c.1 else uncut best (r - c.2) l

def sampleFullVocab (expf : K → K) (draw : σ → K × σ) (logits : List (Logit K)) (temperature topP minP : K)
    (rng : σ) : Nat × σ :=
  let (maxLogit, best) := maxLogit logits
  if (finites logits).isEmpty then (sampleArgmax logits, rng)
  else if 1 ≤ topP then sampleUncut expf draw logits temperature minP maxLogit best rng
  else
    let cand := (candidates expf temperature maxLogit logits).map fun c => (c.id, c.prob)
    let sum := (cand.map Prod.snd).sum
    let topk := (cand.foldl (insertBounded Prod.snd sampleTopk) []).reverse
    if sum ≤ 0 ∨ topk.isEmpty then (best, rng)
    else
      let filtered := nucleus sum topP (minProb minP sum topk) true 0 topk
      -- the list was not enough: the full sort decides
      if filtered.1.length = topk.length ∧ filtered.2 / sum < topP then
        sampleFullVocabExact expf draw logits temperature topP minP maxLogit best rng
      else if filtered.1.isEmpty then (best, rng)
      else drawFrom draw filtered rng

/-- The loop that `sample_top_p_min_p` and its excluding variant share, over the finite
    entries `l`; `argmax` is the answer where there is none. -/
def sampleTop (expf : K → K) (draw : σ → K × σ) (l : List (Nat × K)) (argmax : Int) (temperature : K) (topK : Nat)
    (topP minP : K) (rng : σ) : Int × σ :=
  match (l.foldl (insertBounded Prod.snd topK) []).reverse with
  | [] => (argmax, rng)
  | c :: top =>
    let probs := (c :: top).map fun d => (d.1, expf ((d.2 - c.2) / temperature))
    let sum := (probs.map Prod.snd).sum
    if sum ≤ 0 then (c.1, rng)
    else
      let filtered := nucleus sum topP (minProb minP sum probs) true 0 probs
      if filtered.1.isEmpty then (c.1, rng)
      else
        let r := drawFrom draw filtered rng
        (r.1, r.2)

def sampleTopPMinP (expf : K → K) (draw : σ → K × σ) (logits : List (Logit K)) (temperature : K) (topK : Int)
    (topP minP : K) (rng : σ) : Int × σ :=
  if temperature ≤ 0 then (sampleArgmax logits, rng)
  else
    let topP := if topP ≤ 0 ∨ 1 < topP then 1 else topP
    let minP := if minP < 0 then 0 else minP
    if topK ≤ 0 then
      let r := sampleFullVocab expf draw logits temperature topP minP rng
      (r.1, r.2)
    else
      let topK := if 1024 < topK then 1024 else topK
      let topK := if (logits.length : Int) < topK then (logits.length : Int) else topK
      sampleTop expf draw (finites logits) (sampleArgmax logits) temperature topK.toNat topP minP rng

def sampleArgmaxExcluding (logits : List (Logit K)) (excludedId1 excludedId2 : Int) : Int :=
  let best := logits.zipIdx.foldl
    (fun (b : Int × Logit K) c =>
      if (c.2 : Int) = excludedId1 ∨ (c.2 : Int) = excludedId2 then b
      else if b.1 < 0 ∨ c.1.gt b.2 then (c.2, c.1) else b)
    (-1, .fin negInf)
  best.1

def sampleTopPMinPExcluding (expf : K → K) (draw : σ → K × σ) (logits : List (Logit K)) (temperature : K) (topK : Int)
    (topP minP : K) (rng : σ) (excludedId1 excludedId2 : Int) : Int × σ :=
  if temperature ≤ 0 then (sampleArgmaxExcluding logits excludedId1 excludedId2, rng)
  else
    let topP := if topP ≤ 0 ∨ 1 < topP then 1 else topP
    let minP := if minP < 0 then 0 else minP
    let topK := if topK ≤ 0 then (logits.length : Int) else topK
    let topK := if 1024 < topK then 1024 else topK
    let topK := if (logits.length : Int) < topK then (logits.length : Int) else topK
    sampleTop expf draw
      ((finites logits).filter fun c => ¬((c.1 : Int) = excludedId1 ∨ (c.1 : Int) = excludedId2))
      (sampleArgmaxExcluding logits excludedId1 excludedId2) temperature topK.toNat topP minP rng

/-! ## Speculative sampling -/

/-- `DS4_SPEC_NUCLEUS_CAP`. -/
def specNucleusCap : Nat := 1024

/-- A sparse distribution: tokens with their probabilities. -/
def specBuildTruncDist (expf : K → K) (logits : List (Logit K)) (temperature : K) (topK : Int) (topP minP : K) :
    List (Nat × K) :=
  let temperature := if temperature ≤ 0 then 1 else temperature
  let topP := if topP ≤ 0 ∨ 1 < topP then 1 else topP
  let minP := if minP < 0 then 0 else minP
  let maxLogit := (maxLogit logits).1
  if maxLogit = negInf then []
  else
    let cand := (candidates expf temperature maxLogit logits).map fun c => (c.id, c.prob)
    let sum := (cand.map Prod.snd).sum
    let topk := (cand.foldl (insertBounded Prod.snd specNucleusCap) []).reverse
    if sum ≤ 0 then []
    else
      match topk with
      | [] => []
      | c :: l =>
        let cap := if 0 < topK ∧ topK < (c :: l).length then topK.toNat else (c :: l).length
        let filtered := nucleus sum topP (c.2 / sum * minP) true 0 ((c :: l).take cap)
        if filtered.1.isEmpty ∨ filtered.2 ≤ 0 then [(c.1, 1)]
        else filtered.1.map fun d => (d.1, d.2 * (1 / filtered.2))

def specSampleFromDist (draw : σ → K × σ) (dist : List (Nat × K)) (rng : σ) : Int × σ :=
  if dist.isEmpty then (-1, rng)
  else
    let u := draw rng
    (pick u.1 0 dist, u.2)

def specDistProb (dist : List (Nat × K)) (id : Int) : K :=
  match dist.find? fun c => (c.1 : Int) = id with
  | some c => c.2
  | none => 0

/-- What `p` gives more than `q`, where it does. -/
def residual (p q : List (Nat × K)) : List (Nat × K) :=
  (p.map fun c => (c.1, c.2 - specDistProb q c.1)).filter fun c => 0 < c.2

/-- The distribution a rejected draft is replaced from. -/
def replacement (p q : List (Nat × K)) : List (Nat × K) :=
  let resid := residual p q
  let rsum := (resid.map Prod.snd).sum
  if resid.isEmpty ∨ rsum ≤ 0 then p else resid.map fun c => (c.1, c.2 * (1 / rsum))

/-- The token and whether the draft was accepted. -/
def specSampleStep (expf : K → K) (draw : σ → K × σ) (pLogits : List (Logit K)) (q : List (Nat × K)) (draft : Int)
    (temperature : K) (topK : Int) (topP minP : K) (rng : σ) : (Int × Bool) × σ :=
  let p := specBuildTruncDist expf pLogits temperature topK topP minP
  if p.isEmpty then
    let r := specSampleFromDist draw q rng
    ((r.1, false), r.2)
  else
    let u := draw rng
    if specDistProb q draft ≤ 0 ∨ u.1 * specDistProb q draft ≤ specDistProb p draft then ((draft, true), u.2)
    else
      let r := specSampleFromDist draw (replacement p q) u.2
      ((r.1, false), r.2)

end

end Ds4.Sampling
