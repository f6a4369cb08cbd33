import Ds4.Dist.Provenance

/- Results and the KV prefixes they come from.

   PROVED here: with a hash that is injective on token lists, and for every order of
   submissions, deliveries, snapshots, losses, reconnects and failures, a valid hash
   names the tokens the KV holds and every accepted result was made on every hop from
   exactly the tokens it stands on, all along the run, if and only if no step lets a
   damaged KV pass for its timeline (`prefix_safe`). A snapshot that fails on one
   worker and a span at position 0 are enough to get there (`damaged_kv_accepted`).

   PROVED vs ASSUMED: the runtime's hash has 64 bits and is not injective; the
   theorem is over any hash that is. -/
namespace Ds4.Dist

variable {H : Type} {cfg : Config H}

/-! ## The property -/

/-- A valid hash names the tokens the KV holds. -/
def HashHolds (cfg : Config H) (ws : WorkerSession H) : Prop :=
  ∀ h, ws.tokenHash = some h → ∃ tokens, ws.session.kv = .held tokens ∧ h = cfg.hash.ofPrefix tokens

structure Safe (cfg : Config H) (sys : System H) : Prop where
  hashes : ∀ worker ws, sys.workers worker = some ws → HashHolds cfg ws
  accepted : ∀ sub result, (sub, result) ∈ sys.accepted → result.trace = sub.trace sub.route.length

/-! ## The condition -/

/-- The session does not let a damaged KV pass for its timeline: a failed reset finds no valid
    hash, and a span without a reset that meets a damaged KV is stopped by the slice check,
    after a hash that matches. -/
def WorkGuarded [DecidableEq H] (cfg : Config H) (worker : Nat) (ws : WorkerSession H) (work : Work H) (fate : Fate) : Prop :=
  match fate with
  | .refused => True
  | .processed resetOk outcome =>
    work.wellFormed cfg worker = true →
      if work.resetSession then resetOk = false → ws.tokenHash = none
      else ws.session.kv = .damaged →
        cfg.hash.ofPrefix ws.session.checkpoint = work.prefixHash ∧ ¬(work.pos0 = 0 ∧ outcome = .done)

def Guarded [DecidableEq H] (cfg : Config H) (sys : System H) : Event → Prop
  | .deliver i fate =>
    match sys.works[i]? with
    | none => True
    | some work => WorkGuarded cfg (System.target work) (getSession (sys.workers (System.target work))) work fate
  | _ => True

instance [DecidableEq H] (cfg : Config H) (worker : Nat) (ws : WorkerSession H) (work : Work H) :
    (fate : Fate) → Decidable (WorkGuarded cfg worker ws work fate)
  | .refused => .isTrue trivial
  | .processed _ _ => inferInstanceAs (Decidable (_ = true → ite _ _ _))

instance [DecidableEq H] (cfg : Config H) (sys : System H) : (e : Event) → Decidable (Guarded cfg sys e)
  | .deliver i fate =>
    match h : sys.works[i]? with
    | none => .isTrue (by rw [Guarded, h]; trivial)
    | some work =>
      decidable_of_iff (WorkGuarded cfg (System.target work) (getSession (sys.workers (System.target work))) work fate)
        (by rw [Guarded, h])
  | .submit .. => .isTrue trivial
  | .loadLocal .. => .isTrue trivial
  | .loadRemote .. => .isTrue trivial
  | .lose _ => .isTrue trivial
  | .reconnect _ => .isTrue trivial
  | .accept .. => .isTrue trivial

/-! ## The invariant -/

structure WorkerOk (cfg : Config H) (ws : WorkerSession H) : Prop where
  sound : ws.session.Sound
  hash : HashHolds cfg ws

theorem Inv.safe {sys : System H} (h : Inv (WorkerOk cfg) True cfg sys) : Safe cfg sys :=
  ⟨fun worker ws hws => (h.workers worker ws hws).hash, h.accepted⟩

theorem workerOk_getSession {ws : Option (WorkerSession H)} (h : ∀ w, ws = some w → WorkerOk cfg w) :
    WorkerOk cfg (getSession ws) := by
  cases ws with
  | none => exact ⟨SliceSession.sound_create, fun _ h => nomatch h⟩
  | some w => exact h w rfl

/-! ## The session of one worker -/

variable {worker : Nat} {work : Work H} {fate : Fate} {ws : Option (WorkerSession H)} {sub : Submission H}
  {outcome : Outcome} {session after : SliceSession}

theorem wellFormed_eq [DecidableEq H] (h : work.wellFormed cfg worker = true) :
    work.tokens.length ≠ 0 ∧ work.pos0 ≤ cfg.workerCtx worker ∧
      work.tokens.length ≤ cfg.workerCtx worker - work.pos0 ∧
      cfg.hash.updateSpan work.prefixHash work.tokens = work.resultHash := by
  simpa [Work.wellFormed, and_assoc] using h

/-- What an evaluation leaves, from a KV that holds the tokens before the span. -/
theorem evaluated_ok (hc : Carries sub cfg work) (hkv : session.kv = .held sub.before)
    (hcp : session.checkpoint = sub.before)
    (he : session.evalLayerSlice (cfg.workerCtx worker) work.tokens work.pos0 outcome = (after, true)) :
    WorkerOk cfg ⟨after, some work.resultHash⟩ := by
  obtain ⟨-, -, hafter⟩ := SliceSession.evalLayerSlice_true he
  have hsound : after.Sound := by
    rw [hafter]
    exact SliceSession.Sound.extend (by rw [hkv, hcp]) (by rw [hcp, hc.pos])
  refine ⟨hsound, fun h hh => ⟨after.checkpoint, hsound.valid (by rw [hafter]), ?_⟩⟩
  calc h = work.resultHash := (Option.some.inj hh).symm
    _ = cfg.hash.updateSpan (cfg.hash.ofPrefix sub.before) work.tokens := by rw [hc.resultHash, hc.prefixHash]
    _ = cfg.hash.ofPrefix (sub.before ++ work.tokens) := cfg.hash.updateSpan_ofPrefix _ _
    _ = cfg.hash.ofPrefix after.checkpoint := by rw [hafter, hcp]

/-- Where the hash matches, a span that is evaluated finds the tokens before it, unless it is
    one at position 0 that meets a damaged KV. -/
theorem held_before {entry : WorkerSession H} (hinj : Function.Injective cfg.hash.ofPrefix) (hok : WorkerOk cfg entry)
    (hc : Carries sub cfg work) (hguard : entry.session.kv = .damaged → ¬(work.pos0 = 0 ∧ outcome = .done))
    (hmatch : entry.tokenHash.getD (cfg.hash.ofPrefix entry.session.checkpoint) = work.prefixHash)
    (he : entry.session.evalLayerSlice (cfg.workerCtx worker) work.tokens work.pos0 outcome = (after, true)) :
    entry.session.kv = .held sub.before ∧ entry.session.checkpoint = sub.before := by
  rw [hc.prefixHash] at hmatch
  cases hh : entry.tokenHash with
  | some h =>
    obtain ⟨tokens, hkv, heq⟩ := hok.hash h hh
    have htok : tokens = sub.before := hinj (by rw [← heq, ← hmatch, hh, Option.getD_some])
    exact ⟨by rw [hkv, htok], by rw [hok.sound.timeline _ hkv, htok]⟩
  | none =>
    have hcp : entry.session.checkpoint = sub.before := hinj (by rw [← hmatch, hh, Option.getD_none])
    refine ⟨?_, hcp⟩
    obtain ⟨hdone, hcheck, -⟩ := SliceSession.evalLayerSlice_true he
    have hpos := SliceSession.checkTimeline_pos hcheck
    split_ifs at hpos with hv
    · rw [hok.sound.valid hv, hcp]
    · -- an invalid session takes a span at position 0 only
      cases hkv : entry.session.kv with
      | held tokens => rw [← hcp, hok.sound.timeline tokens hkv]
      | damaged => exact absurd ⟨hpos, hdone⟩ (hguard hkv)

theorem handleSnapshotLoad_ok (hws : ∀ w, ws = some w → WorkerOk cfg w) (tokens : List Nat) (fate : Fate) :
    ∀ w, handleSnapshotLoad cfg ws tokens fate = some w → WorkerOk cfg w := by
  cases fate with
  | refused => exact hws
  | processed resetOk outcome =>
    intro w hw
    have hsound := (workerOk_getSession hws).sound.load tokens outcome
    rw [handleSnapshotLoad] at hw
    cases outcome with
    | done =>
      rw [← Option.some.inj hw]
      exact ⟨hsound, fun h hh => ⟨tokens, rfl, (Option.some.inj hh).symm⟩⟩
    | refused | invalidated | failed =>
      rw [← Option.some.inj hw]
      exact ⟨hsound, fun _ hh => nomatch hh⟩

/-! ## One frame at its worker -/

variable [DecidableEq H]

theorem evalWork_ok (worker : Nat) (outcome : Outcome) (tokenHash : H) (hs : session.Sound) (hc : Carries sub cfg work)
    (hmiss : tokenHash ≠ work.prefixHash → HashHolds cfg ⟨session, some tokenHash⟩)
    (hheld : ∀ after, tokenHash = work.prefixHash →
      session.evalLayerSlice (cfg.workerCtx worker) work.tokens work.pos0 outcome = (after, true) →
      session.kv = .held sub.before ∧ session.checkpoint = sub.before) :
    WorkerOk cfg (evalWork cfg worker session tokenHash work outcome).1 ∧
      ∀ made, (evalWork cfg worker session tokenHash work outcome).2 = some made → made = sub.made (some worker) := by
  rw [evalWork]
  split_ifs with hne
  · exact ⟨⟨hs, hmiss hne⟩, fun _ h => nomatch h⟩
  have hmatch := not_ne_iff.mp hne
  rcases he : session.evalLayerSlice (cfg.workerCtx worker) work.tokens work.pos0 outcome with ⟨after, ok⟩
  cases ok with
  | false => exact ⟨⟨(hs.eval_false he).1, fun _ h => nomatch h⟩, fun _ h => nomatch h⟩
  | true =>
    obtain ⟨hkv, hcp⟩ := hheld after hmatch he
    refine ⟨evaluated_ok hc hkv hcp he, fun made hm => ?_⟩
    rw [← Option.some.inj hm, Submission.made, hkv, hc.pos, hc.tokens]

/-- The step lemma of a worker: a guarded frame keeps its session right, and what it makes
    was made from the tokens before the span. -/
theorem processWork_ok (hinj : Function.Injective cfg.hash.ofPrefix) (hws : ∀ w, ws = some w → WorkerOk cfg w)
    (hc : Carries sub cfg work) (hg : WorkGuarded cfg worker (getSession ws) work fate) :
    (∀ w, (processWork cfg worker ws work fate).1 = some w → WorkerOk cfg w) ∧
      ∀ made, (processWork cfg worker ws work fate).2 = some made → made = sub.made (some worker) := by
  cases fate with
  | refused => exact ⟨hws, fun _ h => nomatch h⟩
  | processed resetOk outcome =>
    have hok := workerOk_getSession hws
    rw [processWork]
    split_ifs with hwf hreset hfail
    · exact ⟨hws, fun _ h => nomatch h⟩
    · -- the session is new, and its hash was not valid
      have hg := hg (by simpa using hwf)
      rw [if_pos hreset] at hg
      refine ⟨fun w hw => ?_, fun _ h => nomatch h⟩
      rw [← Option.some.inj hw]
      refine ⟨SliceSession.sound_reset (getSession ws).session resetOk, fun h hh => ?_⟩
      rw [hg (by simpa using hfail)] at hh
      exact nomatch hh
    · have htrue : resetOk = true := by simpa using hfail
      have hbefore := hc.reset hreset
      have hrun := evalWork_ok worker outcome cfg.hash.init (SliceSession.sound_reset (getSession ws).session resetOk) hc
        (fun _ h hh => ⟨[], by rw [htrue]; rfl, (Option.some.inj hh).symm⟩)
        (fun _ _ _ => by rw [htrue, hbefore]; exact ⟨rfl, rfl⟩)
      refine ⟨fun w hw => ?_, hrun.2⟩
      rw [← Option.some.inj hw]
      exact hrun.1
    · have hg := hg (by simpa using hwf)
      rw [if_neg hreset] at hg
      have hrun := evalWork_ok worker outcome
        ((getSession ws).tokenHash.getD (cfg.hash.ofPrefix (getSession ws).session.checkpoint))
        hok.sound hc (fun hne h hh => ?_)
        (fun _ hmatch he => held_before hinj hok hc (fun hkv => (hg hkv).2) hmatch he)
      · refine ⟨fun w hw => ?_, hrun.2⟩
        rw [← Option.some.inj hw]
        exact hrun.1
      · rw [← Option.some.inj hh]
        cases hth : (getSession ws).tokenHash with
        | some h' => exact hok.hash h' hth
        | none =>
          rw [hth] at hne
          cases hkv : (getSession ws).session.kv with
          | held tokens => exact ⟨tokens, rfl, by rw [hok.sound.timeline tokens hkv]; rfl⟩
          | damaged => exact absurd (hg hkv).1 hne

/-- Where a frame is not guarded, its session ends with a valid hash over a damaged KV. -/
theorem processWork_spoils (hws : ∀ w, ws = some w → WorkerOk cfg w)
    (hg : ¬WorkGuarded cfg worker (getSession ws) work fate) :
    ∃ w, (processWork cfg worker ws work fate).1 = some w ∧ ¬HashHolds cfg w := by
  cases fate with
  | refused => exact absurd trivial hg
  | processed resetOk outcome =>
    have hok := workerOk_getSession hws
    rw [WorkGuarded, Classical.not_imp] at hg
    obtain ⟨hwf, hg⟩ := hg
    rw [processWork, if_neg (by simp [hwf])]
    split_ifs at hg ⊢ with hreset hfail
    · rw [Classical.not_imp] at hg
      obtain ⟨hfalse, hsome⟩ := hg
      obtain ⟨h, hh⟩ := Option.ne_none_iff_exists'.mp hsome
      refine ⟨_, rfl, fun hholds => ?_⟩
      obtain ⟨tokens, hkv, -⟩ := hholds h hh
      rw [hfalse] at hkv
      exact Kv.noConfusion hkv
    · rw [Classical.not_imp] at hg
      exact absurd hg.1 (by simpa using hfail)
    · rw [Classical.not_imp] at hg
      obtain ⟨hkv, hg⟩ := hg
      have hnot : ∀ tokens, (getSession ws).session.kv ≠ .held tokens := fun tokens hheld =>
        Kv.noConfusion (hkv.symm.trans hheld)
      have hnone : (getSession ws).tokenHash = none := by
        by_contra hsome
        obtain ⟨h, hh⟩ := Option.ne_none_iff_exists'.mp hsome
        obtain ⟨tokens, hheld, -⟩ := hok.hash h hh
        exact hnot tokens hheld
      have hinvalid : (getSession ws).session.checkpointValid = false := by
        by_contra hv
        exact hnot _ (hok.sound.valid (by simpa using hv))
      simp only [hnone, Option.getD_none]
      rw [evalWork]
      split_ifs with hne
      · refine ⟨_, rfl, fun hholds => ?_⟩
        obtain ⟨tokens, hheld, -⟩ := hholds _ rfl
        exact hnot tokens hheld
      · obtain ⟨hpos, hdone⟩ := not_not.mp fun h => hg ⟨not_ne_iff.mp hne, h⟩
        obtain ⟨hlen, -, hfits, -⟩ := wellFormed_eq hwf
        have hcheck : (getSession ws).session.checkTimeline (cfg.workerCtx worker) work.tokens.length work.pos0 = true := by
          rw [hpos, Nat.sub_zero] at hfits
          rw [hpos]
          simp [SliceSession.checkTimeline, hinvalid, List.length_eq_zero_iff.not.mp hlen, hfits]
        -- the damaged KV takes the span in, and the flag and the hash come out valid
        simp only [SliceSession.evalLayerSlice, hcheck, hdone, hkv, Kv.extend]
        refine ⟨_, rfl, fun hholds => ?_⟩
        obtain ⟨tokens, hheld, -⟩ := hholds _ rfl
        exact Kv.noConfusion hheld

/-! ## One step of the system -/

theorem step_inv (hinj : Function.Injective cfg.hash.ofPrefix) (sys : System H) (e : Event) (h : Inv (WorkerOk cfg) True cfg sys)
    (hg : Guarded cfg sys e) : Inv (WorkerOk cfg) True cfg (sys.step cfg e) := by
  cases e with
  | submit reset span route resetOk outcome => exact submit_inv h reset span route resetOk outcome fun _ _ => trivial
  | loadLocal tokens outcome => exact h.setCoordinator (h.coordinator.load tokens outcome)
  | loadRemote worker tokens fate => exact h.setWorker worker (handleSnapshotLoad_ok (h.workers worker) tokens fate)
  | deliver i fate =>
    refine deliver_inv h i fate fun work sub hwork hc _ => ?_
    rw [Guarded, hwork] at hg
    exact processWork_ok hinj (h.workers (System.target work)) hc hg
  | lose i => exact h.eraseWork i
  | reconnect worker => exact h.setWorker worker fun _ hw => nomatch hw
  | accept i j => exact accept_inv h i j

theorem step_spoils (sys : System H) (e : Event) (h : Inv (WorkerOk cfg) True cfg sys) (hg : ¬Guarded cfg sys e) :
    ¬Safe cfg (sys.step cfg e) := by
  cases e with
  | deliver i fate =>
    rw [Guarded] at hg
    split at hg
    · exact absurd trivial hg
    next work hwork =>
    obtain ⟨w, hw, hbad⟩ := processWork_spoils (h.workers (System.target work)) hg
    intro hsafe
    refine hbad (hsafe.hashes (System.target work) w ?_)
    simp only [System.step, System.deliver, hwork]
    cases (processWork cfg (System.target work) (sys.workers (System.target work)) work fate).2 with
    | none => simpa using hw
    | some made =>
      simp only [System.handOn]
      split_ifs <;> simpa using hw
  | _ => exact absurd trivial hg

/-! ## Whole runs -/

/-- Hashes and accepted results are right all along a run exactly if every step is guarded. -/
theorem prefix_safe (hinj : Function.Injective cfg.hash.ofPrefix) (events : List Event) :
    Runs.Always (System.step cfg) (Safe cfg) System.start events ↔
      Runs.Admitted (System.step cfg) (Guarded cfg) System.start events :=
  Runs.always_iff_admitted (step_inv hinj) (fun _ h => h.safe) step_spoils inv_start

/-- The token list itself as its hash. -/
def listHash : TokenHash (List Nat) := ⟨[], fun h token => h ++ [token]⟩

theorem listHash_ofPrefix (tokens : List Nat) : listHash.ofPrefix tokens = tokens := by
  have hspan : ∀ h : List Nat, listHash.updateSpan h tokens = h ++ tokens := by
    induction tokens with
    | nil => simp [TokenHash.updateSpan]
    | cons token tokens ih =>
      intro h
      calc listHash.updateSpan h (token :: tokens) = listHash.updateSpan (h ++ [token]) tokens := rfl
        _ = h ++ token :: tokens := by rw [ih, List.append_assoc, List.singleton_append]
  exact hspan []

theorem listHash_injective : Function.Injective listHash.ofPrefix := fun a b h => by
  rwa [listHash_ofPrefix, listHash_ofPrefix] at h

def sampleConfig : Config (List Nat) := ⟨listHash, 8, fun _ => 8⟩

/-- Two workers; the second span fails on the first of them, the other one reconnects, and
    the coordinator replays the whole timeline. -/
def replayedRun : List Event :=
  [.submit true [5, 6] [0, 1] true .done, .deliver 0 (.processed true .done), .deliver 0 (.processed true .done), .accept 0 0,
    .submit false [7] [0, 1] true .done, .deliver 0 (.processed true .failed), .reconnect 1,
    .submit true [5, 6, 7] [0, 1] true .done, .deliver 0 (.processed true .done), .deliver 0 (.processed true .done),
    .accept 1 2]

theorem prefix_safe_replayed :
    Runs.Always (System.step sampleConfig) (Safe sampleConfig) System.start replayedRun :=
  (prefix_safe listHash_injective replayedRun).mpr (by decide)

/-- An empty payload restored by the coordinator only, then a span sent without a reset. -/
def failedLoadRun : List Event :=
  [.loadLocal [] .done, .loadRemote 0 [] (.processed true .failed), .submit false [5] [0] true .done,
    .deliver 0 (.processed true .done), .accept 0 0]

/-- The damaged KV of the worker makes a result that the coordinator accepts. -/
theorem damaged_kv_accepted : Function.Injective sampleConfig.hash.ofPrefix ∧
    ((Runs.run (System.step sampleConfig) System.start failedLoadRun).accepted.map fun p => p.2.trace) =
      [[⟨none, .held [], 0, [5]⟩, ⟨some 0, .damaged, 0, [5]⟩]] ∧
    ¬Runs.Always (System.step sampleConfig) (Safe sampleConfig) System.start failedLoadRun := by
  have htrace : ((Runs.run (System.step sampleConfig) System.start failedLoadRun).accepted.map fun p => p.2.trace) =
      [[⟨none, .held [], 0, [5]⟩, ⟨some 0, .damaged, 0, [5]⟩]] := by decide
  refine ⟨listHash_injective, htrace, fun halways => ?_⟩
  have hmem : [⟨none, .held [], 0, [5]⟩, ⟨some 0, .damaged, 0, [5]⟩] ∈
      (Runs.run (System.step sampleConfig) System.start failedLoadRun).accepted.map fun p => p.2.trace := by
    rw [htrace]
    exact List.mem_singleton_self _
  obtain ⟨⟨sub, result⟩, haccepted, htr⟩ := List.mem_map.mp hmem
  have hsafe : [⟨none, .held [], 0, [5]⟩, ⟨some 0, .damaged, 0, [5]⟩] = sub.trace sub.route.length :=
    htr.symm.trans (halways.last.accepted sub result haccepted)
  have hdamaged : (⟨some 0, .damaged, 0, [5]⟩ : Made) ∈ sub.trace sub.route.length := by
    rw [← hsafe]
    simp
  obtain ⟨hop, -, hmade⟩ := List.mem_map.mp hdamaged
  exact Kv.noConfusion (congrArg Made.kv hmade)

end Ds4.Dist
