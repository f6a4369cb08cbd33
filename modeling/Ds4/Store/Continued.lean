import Ds4.Store.Budget

/- The continued checkpoints of ds4_kvstore.c and the decode loop of ds4_server.c
   that takes them. The loop looks at the live length once a round, and a round
   appends one token or, with speculative decoding, several; a checkpoint is due
   only where the length is a multiple of the aligned step.

   PROVED here: a run takes every checkpoint it passes if and only if each of its
   batches that reaches such a multiple ends on it, with one more round to come
   that is not inside a tool call (`continued_kept_iff`).

   Correspondence (C ↔ Lean):
     `kv_cache_continued_step`, `ds4_kvstore_continued_store_target` ↔ `continuedStep`, `continuedStoreTarget`
     `ds4_kvstore_note_store`, `ds4_kvstore_suppress_continued_store`,
     `ds4_kvstore_restore_suppressed_continued` ↔ `noteStore`, `suppressContinuedStore`, `restoreSuppressedContinued`
     `kv_cache_maybe_store_continued`        ↔ `maybeStoreContinued`
     the decode loop of `generate_job`       ↔ `decodeRound`, one round
   The `int` arithmetic does not overflow. -/
namespace Ds4.Store
open Ds4 Bytes

/-! ## The checkpoint that is due -/

def continuedStep (kc : KvStore) : Int :=
  if kc.enabled = false ∨ kc.opt.continuedIntervalTokens ≤ 0 then 0
  else
    let step := kc.opt.continuedIntervalTokens
    let align := kc.opt.boundaryAlignTokens
    if 0 < align then
      let step := Int.tdiv (step + align - 1) align * align
      if step ≤ 0 then align else step
    else step

def continuedStoreTarget (kc : KvStore) (liveTokens : Int) : Int :=
  let step := continuedStep kc
  if step ≤ 0 then 0
  else if liveTokens < kc.opt.minTokens then 0
  else if Int.tmod liveTokens step ≠ 0 then 0
  else if liveTokens ≤ kc.continuedLastStoreTokens then 0
  else liveTokens

def noteStore (kc : KvStore) (tokens : Int) : KvStore :=
  if kc.continuedLastStoreTokens < tokens then { kc with continuedLastStoreTokens := tokens } else kc

/-- The mark before, or -1 if no checkpoint was due. -/
def suppressContinuedStore (kc : KvStore) (tokens : Int) : KvStore × Int :=
  if continuedStoreTarget kc tokens ≠ tokens then (kc, -1) else (noteStore kc tokens, kc.continuedLastStoreTokens)

def restoreSuppressedContinued (kc : KvStore) (oldTokens suppressedTokens : Int) : KvStore :=
  if 0 ≤ oldTokens ∧ kc.continuedLastStoreTokens = suppressedTokens then { kc with continuedLastStoreTokens := oldTokens } else kc

theorem restore_suppressed {kc : KvStore} {n : Int} (hmark : 0 ≤ kc.continuedLastStoreTokens)
    (hdue : continuedStoreTarget kc n = n) :
    restoreSuppressedContinued (suppressContinuedStore kc n).1 (suppressContinuedStore kc n).2 n = kc := by
  rw [suppressContinuedStore, if_neg (not_not.mpr hdue), noteStore]
  split
  · rw [restoreSuppressedContinued, if_pos ⟨hmark, rfl⟩]
  · rw [restoreSuppressedContinued]
    split <;> rfl

/-- A multiple of the step at which the store wants a checkpoint, above a mark. -/
structure Waypoint (kc : KvStore) (mark m : Int) : Prop where
  step : 0 < continuedStep kc
  multiple : continuedStep kc ∣ m
  min : kc.opt.minTokens ≤ m
  above : mark < m

theorem continuedStoreTarget_waypoint {kc : KvStore} {m : Int} (h : Waypoint kc kc.continuedLastStoreTokens m) :
    continuedStoreTarget kc m = m := by
  have hmod : Int.tmod m (continuedStep kc) = 0 := Int.tmod_eq_zero_of_dvd h.multiple
  have hstep := h.step
  have hmin := h.min
  have habove := h.above
  simp only [continuedStoreTarget]
  rw [if_neg (by omega), if_neg (by omega), if_neg (not_not.mpr hmod), if_neg (by omega)]

theorem waypoint_of_target {kc : KvStore} {n : Int} (h : continuedStoreTarget kc n ≠ 0) :
    Waypoint kc kc.continuedLastStoreTokens n ∧ continuedStoreTarget kc n = n := by
  simp only [continuedStoreTarget] at h ⊢
  split_ifs at h ⊢ with h1 h2 h3 h4
  · exact absurd rfl h
  · exact absurd rfl h
  · exact absurd rfl h
  · exact absurd rfl h
  · exact ⟨⟨by omega, Int.dvd_of_tmod_eq_zero (not_not.mp h3), by omega, by omega⟩, rfl⟩

/-! ## The decode loop -/

/-- One round: whether the request is inside a tool call, what a store would write and how
    the directory is read, and the tokens the model's step appends. -/
structure Round where
  inCall : Bool
  payload : Option Bytes
  hooks : Option TrailerHooks
  host : Host
  batch : List Int

structure Decode where
  kc : KvStore
  tokens : List Int

def storeContinued (en : KvEngine) (ctx : Int) (s : Decode) (r : Round) (target : Int) : KvStore × Bool :=
  storeLivePrefixText s.kc r.host
    { engine := en, session := ⟨some s.tokens, ctx, r.payload⟩, tokens := some s.tokens, storeLen := target
      reason := some "continued", cacheTextOverride := none, cacheTextExt := 0, hooks := r.hooks }

def maybeStoreContinued (en : KvEngine) (ctx : Int) (s : Decode) (r : Round) : KvStore :=
  let target := continuedStoreTarget s.kc s.tokens.length
  if target = 0 then s.kc
  else if (storeContinued en ctx s r target).2 then noteStore (storeContinued en ctx s r target).1 target
  else (storeContinued en ctx s r target).1

/-- What the round's look at the live length gives, 0 if it does not look. -/
def roundTarget (s : Decode) (r : Round) : Int := if r.inCall then 0 else continuedStoreTarget s.kc s.tokens.length

def decodeRound (en : KvEngine) (ctx : Int) (s : Decode) (r : Round) : Decode where
  kc := if r.inCall then s.kc else maybeStoreContinued en ctx s r
  tokens := s.tokens ++ r.batch

/-- The state before the round `k` of a run. -/
def before (en : KvEngine) (ctx : Int) (s : Decode) (rounds : List Round) (k : Nat) : Decode :=
  (rounds.take k).foldl (decodeRound en ctx) s

/-- The live length before the round `k`, from the batches alone. -/
def lengthBefore (s : Decode) (rounds : List Round) (k : Nat) : Int :=
  s.tokens.length + ((rounds.take k).map fun r => r.batch.length).sum

/-- Every checkpoint a batch passes is taken up by a later round before the next one is passed. -/
def NoneSkipped (en : KvEngine) (ctx : Int) (s : Decode) (rounds : List Round) : Prop :=
  ∀ i < rounds.length, ∀ m : Int, (before en ctx s rounds i).tokens.length < m → m ≤ (before en ctx s rounds (i + 1)).tokens.length →
    Waypoint (before en ctx s rounds (i + 1)).kc (before en ctx s rounds (i + 1)).kc.continuedLastStoreTokens m →
      ∃ j r, i < j ∧ rounds[j]? = some r ∧
        ((before en ctx s rounds j).tokens.length : Int) < m + continuedStep (before en ctx s rounds (i + 1)).kc ∧
        roundTarget (before en ctx s rounds j) r ≠ 0

/-- Every batch that reaches a multiple above the mark at the start ends on it, and the
    next round looks. -/
def LandsOnWaypoints (s : Decode) (rounds : List Round) : Prop :=
  ∀ i < rounds.length, ∀ m : Int, lengthBefore s rounds i < m → m ≤ lengthBefore s rounds (i + 1) →
    Waypoint s.kc s.kc.continuedLastStoreTokens m →
      lengthBefore s rounds (i + 1) = m ∧ ∃ r, rounds[i + 1]? = some r ∧ r.inCall = false

/-! ## What a run keeps -/

/-- What the store's configuration and mark are. -/
def KvStore.marks (kc : KvStore) : Bool × Options × Int := (kc.enabled, kc.opt, kc.continuedLastStoreTokens)

theorem evict_marks (kc : KvStore) (host : Host) (now extra : Nat) (incoming : Option EvictionContext) :
    (evict kc host now extra incoming).1.marks = kc.marks := by
  unfold evict refresh
  split_ifs <;> rfl

theorem existingFile_marks (kc : KvStore) (a : StoreArgs) (p : StorePlan) : (existingFile kc a p).2.marks = kc.marks := by
  cases hc : (existingFile kc a p).1 with
  | true =>
    obtain ⟨_, _, -, -, -, -, hkc⟩ := existingCompatible_true hc
    rw [existingFile, hkc]
  | false =>
    rcases existingCompatible_false hc with hkc | hkc <;> rw [existingFile, hkc]
    rfl

theorem storeNew_marks (kc : KvStore) (host : Host) (a : StoreArgs) (p : StorePlan) (path : Bytes) :
    (storeNew kc host a p path).1.marks = kc.marks := by
  unfold storeNew
  split
  · rfl
  · split
    · rfl
    · dsimp only
      split
      · exact evict_marks _ _ _ _ _
      · split <;> exact evict_marks _ _ _ _ _

/-- A store leaves the mark to its caller. -/
theorem store_marks (kc : KvStore) (host : Host) (a : StoreArgs) : (storeLivePrefixText kc host a).1.marks = kc.marks := by
  unfold storeLivePrefixText
  split
  · rfl
  · next p _ =>
    have hexist := existingFile_marks kc a p
    split
    · next kc' h =>
      rw [h] at hexist
      rw [← hexist]
      unfold rewriteTrailer
      split <;> rfl
    · next kc' h =>
      rw [h] at hexist
      rw [← hexist]
      exact storeNew_marks kc' host a p _

theorem storeContinued_marks (en : KvEngine) (ctx : Int) (s : Decode) (r : Round) (target : Int) :
    (storeContinued en ctx s r target).1.marks = s.kc.marks := store_marks _ _ _

theorem noteStore_spec (kc : KvStore) (n : Int) : (noteStore kc n).enabled = kc.enabled ∧ (noteStore kc n).opt = kc.opt ∧
    (noteStore kc n).continuedLastStoreTokens = max kc.continuedLastStoreTokens n := by
  unfold noteStore
  split
  · exact ⟨rfl, rfl, by dsimp only; omega⟩
  · exact ⟨rfl, rfl, by omega⟩

section
variable (en : KvEngine) (ctx : Int) {s : Decode} {rounds : List Round}

/-- A round keeps the configuration, and moves the mark at most up to the live length. -/
structure Advances (s s' : Decode) : Prop where
  enabled : s'.kc.enabled = s.kc.enabled
  opt : s'.kc.opt = s.kc.opt
  le_mark : s.kc.continuedLastStoreTokens ≤ s'.kc.continuedLastStoreTokens
  mark_le : s'.kc.continuedLastStoreTokens ≤ max s.kc.continuedLastStoreTokens s.tokens.length

theorem decodeRound_advances (s : Decode) (r : Round) : Advances s (decodeRound en ctx s r) := by
  have hstay (kc : KvStore) (tokens : List Int) (h : kc.marks = s.kc.marks) : Advances s ⟨kc, tokens⟩ := by
    obtain ⟨he, ho, hm⟩ : kc.enabled = s.kc.enabled ∧ kc.opt = s.kc.opt ∧
        kc.continuedLastStoreTokens = s.kc.continuedLastStoreTokens := by
      simpa [KvStore.marks] using h
    exact ⟨he, ho, Int.le_of_eq hm.symm, by dsimp only; omega⟩
  unfold decodeRound maybeStoreContinued
  dsimp only
  split_ifs with hcall hzero hstored
  · exact hstay _ _ rfl
  · exact hstay _ _ rfl
  · have hkc := hstay _ s.tokens (storeContinued_marks en ctx s r (continuedStoreTarget s.kc s.tokens.length))
    obtain ⟨-, htarget⟩ := waypoint_of_target hzero
    obtain ⟨he, ho, hm⟩ := noteStore_spec (storeContinued en ctx s r (continuedStoreTarget s.kc s.tokens.length)).1
      (continuedStoreTarget s.kc s.tokens.length)
    have h1 := hkc.le_mark
    have h2 := hkc.mark_le
    dsimp only at h1 h2
    exact ⟨he.trans hkc.enabled, ho.trans hkc.opt, by dsimp only; omega, by dsimp only; omega⟩
  · exact hstay _ _ (storeContinued_marks en ctx s r _)

theorem before_succ {k : Nat} {r : Round} (h : rounds[k]? = some r) :
    before en ctx s rounds (k + 1) = decodeRound en ctx (before en ctx s rounds k) r := by
  rw [before, before, List.take_add_one, h, Option.toList_some, List.foldl_append, List.foldl_cons, List.foldl_nil]

theorem lengthBefore_succ {k : Nat} {r : Round} (h : rounds[k]? = some r) :
    lengthBefore s rounds (k + 1) = lengthBefore s rounds k + r.batch.length := by
  rw [lengthBefore, lengthBefore, List.take_add_one, h, Option.toList_some, List.map_append, List.sum_append]
  simp
  omega

theorem length_before : ∀ {k : Nat}, k ≤ rounds.length →
    ((before en ctx s rounds k).tokens.length : Int) = lengthBefore s rounds k
  | 0, _ => by simp [before, lengthBefore]
  | k + 1, hk => by
    have hr := List.getElem?_eq_getElem (show k < rounds.length by omega)
    rw [before_succ en ctx hr, lengthBefore_succ hr, ← length_before (show k ≤ rounds.length by omega), decodeRound,
      List.length_append]
    omega

theorem lengthBefore_mono {i j : Nat} (h : i ≤ j) (hj : j ≤ rounds.length) : lengthBefore s rounds i ≤ lengthBefore s rounds j := by
  induction j, h using Nat.le_induction with
  | base => exact Int.le_refl _
  | succ j _ ih =>
    rw [lengthBefore_succ (List.getElem?_eq_getElem (show j < rounds.length by omega))]
    have := ih (by omega)
    omega

/-- The configuration and the bounds of the mark before a round. -/
theorem before_advances : ∀ {k : Nat}, k ≤ rounds.length →
    (before en ctx s rounds k).kc.enabled = s.kc.enabled ∧ (before en ctx s rounds k).kc.opt = s.kc.opt ∧
      s.kc.continuedLastStoreTokens ≤ (before en ctx s rounds k).kc.continuedLastStoreTokens ∧
      ∀ n, (∀ j, j + 1 ≤ k → lengthBefore s rounds j ≤ n) →
        (before en ctx s rounds k).kc.continuedLastStoreTokens ≤ max s.kc.continuedLastStoreTokens n
  | 0, _ => ⟨rfl, rfl, Int.le_refl _, fun n _ => Int.le_max_left _ n⟩
  | k + 1, hk => by
    have hr := List.getElem?_eq_getElem (show k < rounds.length by omega)
    obtain ⟨he, ho, hle, hbound⟩ := before_advances (show k ≤ rounds.length by omega)
    obtain ⟨he', ho', hle', hmark⟩ := decodeRound_advances en ctx (before en ctx s rounds k) rounds[k]
    rw [length_before en ctx (show k ≤ rounds.length by omega)] at hmark
    rw [before_succ en ctx hr]
    refine ⟨he'.trans he, ho'.trans ho, Int.le_trans hle hle', fun n hn => ?_⟩
    have hprev := hbound n fun j hj => hn j (by omega)
    have hlast := hn k (Nat.le_refl _)
    omega

theorem continuedStep_before {k : Nat} (hk : k ≤ rounds.length) :
    continuedStep (before en ctx s rounds k).kc = continuedStep s.kc := by
  obtain ⟨he, ho, -⟩ := before_advances en ctx (s := s) hk
  rw [continuedStep, continuedStep, he, ho]

theorem waypoint_before {i : Nat} (hi : i < rounds.length) {m : Int} (hm : lengthBefore s rounds i < m) :
    Waypoint (before en ctx s rounds (i + 1)).kc (before en ctx s rounds (i + 1)).kc.continuedLastStoreTokens m ↔
      Waypoint s.kc s.kc.continuedLastStoreTokens m := by
  obtain ⟨-, ho, hle, hbound⟩ := before_advances en ctx (s := s) (show i + 1 ≤ rounds.length from hi)
  have hmark := hbound (lengthBefore s rounds i) fun j hj => lengthBefore_mono (by omega) (by omega)
  have hstep := continuedStep_before en ctx (s := s) (show i + 1 ≤ rounds.length from hi)
  constructor
  · rintro ⟨h1, h2, h3, h4⟩
    rw [hstep] at h1 h2
    rw [ho] at h3
    exact ⟨h1, h2, h3, by omega⟩
  · rintro ⟨h1, h2, h3, h4⟩
    refine ⟨?_, ?_, ?_, by omega⟩
    · rwa [hstep]
    · rwa [hstep]
    · rwa [ho]

end

/-! ## When no checkpoint is skipped -/

/-- A run takes every checkpoint it passes exactly when every batch that reaches one
    ends on it, with one more round that looks. -/
theorem continued_kept_iff (en : KvEngine) (ctx : Int) (s : Decode) (rounds : List Round)
    (hpos : ∀ r ∈ rounds.dropLast, r.batch ≠ []) : NoneSkipped en ctx s rounds ↔ LandsOnWaypoints s rounds := by
  constructor
  · intro h i hi m hlt hle hw
    have hnext : i + 1 ≤ rounds.length := hi
    have hw' := (waypoint_before en ctx hi hlt).mpr hw
    obtain ⟨j, r, hij, hr, hnear, htarget⟩ :=
      h i hi m (by rwa [length_before en ctx hi.le]) (by rwa [length_before en ctx hnext]) hw'
    have hj : j < rounds.length := (List.getElem?_eq_some_iff.mp hr).1
    have hmono := lengthBefore_mono (s := s) (show i + 1 ≤ j from hij) hj.le
    rw [length_before en ctx hj.le, continuedStep_before en ctx hnext] at hnear
    obtain ⟨hopen, hmul⟩ : r.inCall = false ∧ continuedStep s.kc ∣ lengthBefore s rounds j := by
      rw [roundTarget] at htarget
      split at htarget
      · exact absurd rfl htarget
      · next hcall =>
        have hmul := (waypoint_of_target htarget).1.multiple
        rw [continuedStep_before en ctx hj.le, length_before en ctx hj.le] at hmul
        exact ⟨by simpa using hcall, hmul⟩
    -- two multiples less than a step apart
    have hland : lengthBefore s rounds j = m := by
      have hzero := Int.eq_zero_of_dvd_of_natAbs_lt_natAbs (Int.dvd_sub hmul hw.multiple) (by omega)
      omega
    have hsame : i + 1 = j := by
      by_contra hne
      have hr' := List.getElem?_eq_getElem (show i + 1 < rounds.length by omega)
      have hbatch : rounds[i + 1].batch ≠ [] := by
        apply hpos
        rw [List.mem_iff_getElem]
        refine ⟨i + 1, ?_, List.getElem_dropLast _⟩
        rw [List.length_dropLast]
        omega
      have hgrow := List.length_pos_iff.mpr hbatch
      have hsucc := lengthBefore_succ (s := s) hr'
      have hlater := lengthBefore_mono (s := s) (show i + 1 + 1 ≤ j by omega) hj.le
      omega
    rw [hsame]
    exact ⟨hland, r, hr, hopen⟩
  · intro h i hi m hlt hle hw
    have hnext : i + 1 ≤ rounds.length := hi
    rw [length_before en ctx hi.le] at hlt
    rw [length_before en ctx hnext] at hle
    obtain ⟨hland, r, hr, hopen⟩ := h i hi m hlt hle ((waypoint_before en ctx hi hlt).mp hw)
    have hlen := (length_before en ctx (s := s) hnext).trans hland
    refine ⟨i + 1, r, Nat.lt_succ_self i, hr, ?_, ?_⟩
    · have := hw.step
      omega
    · rw [roundTarget, hopen, if_neg Bool.false_ne_true, hlen, continuedStoreTarget_waypoint hw]
      have : 0 ≤ lengthBefore s rounds i := by
        rw [← length_before en ctx hi.le]
        exact Int.natCast_nonneg _
      omega

/-- `ds4_kvstore_default_options`. -/
def defaultOptions : Options := ⟨512, 30000, 10000, 32, 2048⟩

/-- One token before the first checkpoint of a store of the default options, which fall on multiples of 10240. -/
def beforeFirst : Decode := ⟨⟨true, ∅, 1048576, false, defaultOptions, 0, []⟩, List.replicate 10239 5⟩

def plainRound (batch : List Int) : Round := ⟨false, none, none, plainHost, batch⟩

theorem lengthBefore_pair (s : Decode) (batch : List Int) : lengthBefore s [plainRound batch, plainRound []] 0 = s.tokens.length ∧
    lengthBefore s [plainRound batch, plainRound []] 1 = s.tokens.length + batch.length ∧
    lengthBefore s [plainRound batch, plainRound []] 2 = s.tokens.length + batch.length := by
  simp [lengthBefore, plainRound]

theorem length_beforeFirst : beforeFirst.tokens.length = 10239 := List.length_replicate

def plainEngine : KvEngine := ⟨2, 0, fun _ => [], fun _ => []⟩

theorem continued_kept_single : NoneSkipped plainEngine 4096 beforeFirst [plainRound [5], plainRound []] := by
  obtain ⟨h0, h1, h2⟩ := lengthBefore_pair beforeFirst [5]
  rw [length_beforeFirst] at h0 h1 h2
  refine (continued_kept_iff plainEngine 4096 beforeFirst [plainRound [5], plainRound []] ?_).mpr ?_
  · intro r hr
    obtain rfl := List.mem_singleton.mp hr
    exact List.cons_ne_nil _ _
  · intro i hi m hlt hle _
    obtain rfl | rfl : i = 0 ∨ i = 1 := by
      simp at hi
      omega
    · rw [h0] at hlt
      rw [h1] at hle ⊢
      refine ⟨?_, plainRound [], rfl, rfl⟩
      simp at hlt hle ⊢
      omega
    · rw [h1] at hlt
      rw [h2] at hle
      omega

/-- A batch of two tokens steps over the checkpoint at 10240. -/
theorem continued_skipped :
    ¬∀ (en : KvEngine) (ctx : Int) (s : Decode) (rounds : List Round), (∀ r ∈ rounds.dropLast, r.batch ≠ []) →
      NoneSkipped en ctx s rounds := by
  intro h
  have hpos : ∀ r ∈ [plainRound [5, 5], plainRound []].dropLast, r.batch ≠ [] := by
    intro r hr
    obtain rfl := List.mem_singleton.mp hr
    exact List.cons_ne_nil _ _
  obtain ⟨h0, h1, -⟩ := lengthBefore_pair beforeFirst [5, 5]
  rw [length_beforeFirst] at h0 h1
  have hw : Waypoint beforeFirst.kc beforeFirst.kc.continuedLastStoreTokens 10240 := ⟨by decide, by decide, by decide, by decide⟩
  have hlt : lengthBefore beforeFirst [plainRound [5, 5], plainRound []] 0 < 10240 := by
    rw [h0]
    decide
  have hlen0 := length_before plainEngine 4096 (s := beforeFirst) (show 0 ≤ [plainRound [5, 5], plainRound []].length by decide)
  have hlen1 := length_before plainEngine 4096 (s := beforeFirst) (show 1 ≤ [plainRound [5, 5], plainRound []].length by decide)
  obtain ⟨j, r, hj, hr, -, htarget⟩ := h plainEngine 4096 beforeFirst _ hpos 0 (by decide) 10240 (by rwa [hlen0])
    (by rw [hlen1, h1]; decide) ((waypoint_before plainEngine 4096 (by decide) hlt).mpr hw)
  have hlast := (List.getElem?_eq_some_iff.mp hr).1
  obtain rfl : j = 1 := by
    simp at hlast
    omega
  rw [roundTarget] at htarget
  split at htarget
  · exact htarget rfl
  · have hmul := (waypoint_of_target htarget).1.multiple
    rw [continuedStep_before plainEngine 4096 (by decide), hlen1, h1] at hmul
    exact absurd hmul (by decide)

end Ds4.Store
