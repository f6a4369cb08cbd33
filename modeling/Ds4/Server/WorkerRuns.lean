import Ds4.Server.Protocol
import Mathlib.Data.List.Pairwise

/- Every job the worker takes ends once.

   `Sound` is what holds of a job and the server's counters after every call of
   the state machine, and each call keeps it, so each path through `generate_job`
   does. PROVED from it: a job ends in a terminal phase, nothing of it changes
   after that, it enters the recovery phase once at most, and one counter goes up
   for it, the one of its last phase (`worker_main_accounts`). -/
namespace Ds4.Server

/-- How often the recovery phase is entered along the states. -/
def recoveryEntries : List ProtocolState → Nat
  | p :: q :: rest => (if p.phase ≠ .recovery ∧ q.phase = .recovery then 1 else 0) + recoveryEntries (q :: rest)
  | _ => 0

theorem recoveryEntries_concat (l : List ProtocolState) (p q : ProtocolState) :
    recoveryEntries (l ++ [p] ++ [q]) =
      recoveryEntries (l ++ [p]) + (if p.phase ≠ .recovery ∧ q.phase = .recovery then 1 else 0) := by
  induction l with
  | nil => simp [recoveryEntries]
  | cons a l ih =>
    cases l with
    | nil => simp [recoveryEntries]
    | cons b l =>
      simp only [List.cons_append, recoveryEntries] at ih ⊢
      omega

/-- The three counts of a server. -/
def Counters.counts (s : Counters) : Nat × Nat × Nat := (s.completedRequests, s.failedRequests, s.cancelledRequests)

/-- What holds of a job after any calls, with `s` the server when it was taken. -/
structure Sound (s : Counters) (w : Worker) : Prop where
  last : ∃ before, w.history = before ++ [w.protocol]
  flag : ∀ p ∈ w.history, p.terminal = isTerminal p.phase
  /-- A state after a terminal one is that one. -/
  frozen : w.history.Pairwise fun p q => p.terminal = true → q = p
  recovery : recoveryEntries w.history ≤ if w.protocol.recoveryAttempted then 1 else 0
  inRecovery : w.protocol.phase = .recovery → w.protocol.recoveryAttempted = true
  counts : w.server.counts = if w.protocol.terminal then (s.count w.protocol.phase).counts else s.counts

/-- What a call may do to the state of a job. -/
structure Call (p q : ProtocolState) : Prop where
  frozen : p.terminal = true → q = p
  flag : q.terminal = isTerminal q.phase
  recovery : q.phase = .recovery → p.phase ≠ .recovery → p.recoveryAttempted = false
  attempted : q.phase = .recovery → q.recoveryAttempted = true
  kept : p.recoveryAttempted = true → q.recoveryAttempted = true

variable {s : Counters} {w : Worker}

theorem count_counts {s s' : Counters} (h : s.counts = s'.counts) (phase : Phase) :
    (s.count phase).counts = (s'.count phase).counts := by
  simp only [Counters.counts, Prod.mk.injEq] at h
  unfold Counters.count
  split
  next => simp [Counters.counts, h]
  next =>
    split
    next => simp [Counters.counts, h]
    next => simp [Counters.counts, h]

theorem Sound.terminal_flag (h : Sound s w) : w.protocol.terminal = isTerminal w.protocol.phase := by
  obtain ⟨before, hlast⟩ := h.last
  exact h.flag _ (by rw [hlast]; simp)

/-- The step: a call keeps the invariant, where the counters follow it. -/
theorem Sound.call (h : Sound s w) {q : ProtocolState} {server : Counters} (hc : Call w.protocol q)
    (hcounts : server.counts = if q.terminal then (s.count q.phase).counts else s.counts) :
    Sound s { server, protocol := q, history := w.history ++ [q] } := by
  obtain ⟨before, hlast⟩ := h.last
  constructor
  case last => exact ⟨w.history, rfl⟩
  case flag =>
    intro p hp
    rcases List.mem_append.mp hp with hp | hp
    · exact h.flag p hp
    · rw [List.mem_singleton.mp hp]
      exact hc.flag
  case frozen =>
    refine List.pairwise_append.mpr ⟨h.frozen, List.pairwise_singleton _ _, fun p hp q' hq' hterm => ?_⟩
    rw [List.mem_singleton.mp hq']
    -- the state before the call is `p` already, and stays
    have hcur : w.protocol = p := by
      rw [hlast] at hp
      rcases List.mem_append.mp hp with hp | hp
      · have hfr := h.frozen
        rw [hlast] at hfr
        exact (List.pairwise_append.mp hfr).2.2 p hp _ (by simp) hterm
      · exact (List.mem_singleton.mp hp).symm
    rw [hc.frozen (by rw [hcur]; exact hterm), hcur]
  case recovery =>
    have hrec := h.recovery
    change recoveryEntries (w.history ++ [q]) ≤ if q.recoveryAttempted then 1 else 0
    rw [hlast] at hrec ⊢
    rw [recoveryEntries_concat]
    by_cases hq : w.protocol.phase ≠ .recovery ∧ q.phase = .recovery
    · have hno := hc.recovery hq.2 hq.1
      have hyes := hc.attempted hq.2
      simp only [hno, hyes, hq, ne_eq, not_false_eq_true, and_self, if_true, Bool.false_eq_true, if_false] at hrec ⊢
      omega
    · rw [if_neg hq, Nat.add_zero]
      by_cases ha : w.protocol.recoveryAttempted = true
      · rw [if_pos ha] at hrec
        rw [if_pos (hc.kept ha)]
        exact hrec
      · rw [if_neg ha] at hrec
        omega
  case inRecovery => exact hc.attempted
  case counts => exact hcounts

/-! ## The calls -/

theorem isTerminal_of_transition {p next : Phase} (h : transitionAllowed p next = true) : isTerminal p = false := by
  unfold transitionAllowed at h
  cases hp : isTerminal p with
  | false => rfl
  | true => simp [hp] at h

/-- A state that takes a transition has not ended. -/
theorem Sound.live (h : Sound s w) {next : Phase} (ht : transitionAllowed w.protocol.phase next = true) :
    w.protocol.terminal = false := by
  rw [h.terminal_flag]
  exact isTerminal_of_transition ht

theorem Call.refl (h : Sound s w) : Call w.protocol w.protocol :=
  ⟨fun _ => rfl, h.terminal_flag, fun hp hn => absurd hp hn, h.inRecovery, fun hp => hp⟩

/-- A call that leaves the job as it is. -/
theorem Sound.idle (h : Sound s w) (publish : Bool) : Sound s (w.note w.protocol publish) :=
  h.call (Call.refl h) h.counts

/-- A step to a phase that neither ends the job nor is the recovery. -/
theorem Sound.transition (h : Sound s w) {next : Phase} (hterm : isTerminal next = false) (hrec : next ≠ .recovery) :
    Sound s (serverProtocolTransition w next).1 := by
  by_cases ht : transitionAllowed w.protocol.phase next = true
  · have hlive := h.live ht
    simp only [serverProtocolTransition, protocolTransition, if_pos ht]
    refine h.call ⟨fun hp => ?_, ?_, fun hp => absurd hp hrec, fun hp => absurd hp hrec, fun hp => hp⟩ ?_
    · rw [hlive] at hp
      cases hp
    · change w.protocol.terminal = isTerminal next
      rw [hlive, hterm]
    · have hc := h.counts
      rw [hlive] at hc
      simp only [hlive]
      exact hc
  · simp only [serverProtocolTransition, protocolTransition, if_neg ht]
    exact h.idle false

theorem Sound.beginRecovery (h : Sound s w) : Sound s (serverProtocolBeginRecovery w).1 := by
  by_cases hskip : (w.protocol.recoveryAttempted || w.protocol.phase ≠ .decode) = true
  · simp only [serverProtocolBeginRecovery, protocolBeginRecovery, if_pos hskip]
    exact h.idle false
  · have hno : w.protocol.recoveryAttempted = false := by
      cases ha : w.protocol.recoveryAttempted with
      | false => rfl
      | true => simp [ha] at hskip
    have hphase : w.protocol.phase = .decode := by
      by_contra hne
      simp [hne] at hskip
    have hallowed : transitionAllowed w.protocol.phase .recovery = true := by
      rw [hphase]
      rfl
    have hlive := h.live hallowed
    have htake : protocolTransition { w.protocol with recoveryAttempted := true } .recovery =
        ({ w.protocol with recoveryAttempted := true, phase := .recovery }, true) := if_pos hallowed
    simp only [serverProtocolBeginRecovery, protocolBeginRecovery, if_neg hskip, htake]
    refine h.call ⟨fun hp => ?_, ?_, fun _ _ => hno, fun _ => rfl, fun _ => rfl⟩ ?_
    · rw [hlive] at hp
      cases hp
    · change w.protocol.terminal = isTerminal .recovery
      rw [hlive]
      rfl
    · have hc := h.counts
      rw [hlive] at hc
      simp only [hlive]
      exact hc

theorem Sound.progress (h : Sound s w) (promptTokens completionTokens : Int) :
    Sound s (serverProtocolProgress w promptTokens completionTokens) := by
  unfold serverProtocolProgress protocolProgress
  split
  next => exact h.idle true
  next hlive =>
    rw [Bool.not_eq_true] at hlive
    refine h.call ⟨fun hp => ?_, h.terminal_flag, fun hp hn => absurd hp hn, h.inRecovery, fun hp => hp⟩ ?_
    · rw [hlive] at hp
      cases hp
    · exact h.counts

/-- An end is counted, unless the job has one. -/
theorem Sound.finish (h : Sound s w) {phase : Phase} (hphase : isTerminal phase = true) :
    Sound s (serverProtocolFinish w phase).1 ∧ (serverProtocolFinish w phase).1.protocol.terminal = true := by
  by_cases hend : w.protocol.terminal = true
  · have hskip : protocolFinish w.protocol phase = (w.protocol, false) := by
      simp [protocolFinish, hend]
    simp only [serverProtocolFinish, hskip, Bool.false_eq_true, if_false]
    exact ⟨h.idle false, hend⟩
  · rw [Bool.not_eq_true] at hend
    have hlive : isTerminal w.protocol.phase = false := by rw [← h.terminal_flag, hend]
    have hallowed : transitionAllowed w.protocol.phase phase = true := by
      simp [transitionAllowed, hlive, hphase]
    have htake : protocolFinish w.protocol phase = ({ w.protocol with phase, terminal := true }, true) := by
      simp [protocolFinish, hphase, hend, protocolTransition, hallowed]
    simp only [serverProtocolFinish, htake, if_true]
    have hrec : phase ≠ .recovery := by
      rintro rfl
      cases hphase
    refine ⟨h.call ⟨fun hp => ?_, hphase.symm, fun hp => absurd hp hrec, fun hp => absurd hp hrec, fun hp => hp⟩ ?_, rfl⟩
    · rw [hend] at hp
      cases hp
    · have hc := h.counts
      rw [hend] at hc
      have hc' : (w.note { w.protocol with phase, terminal := true } true).server.counts = s.counts := hc
      exact (count_counts hc' phase).trans (if_pos rfl).symm

/-! ## A job -/

theorem Sound.progresses (h : Sound s w) (f : Int → Int × Int) (counts : List Int) :
    Sound s (counts.foldl (fun w c => serverProtocolProgress w (f c).1 (f c).2) w) := by
  induction counts generalizing w with
  | nil => exact h
  | cons c counts ih => exact ih (h.progress _ _)

section
variable {r : JobRequest} {pass : DecodePass} {attempted : Bool}

theorem Sound.tryRecovery (h : Sound s w) (appended : Bool) : Sound s (tryRecovery r attempted appended w).1 := by
  unfold Server.tryRecovery
  split
  next =>
    have hb := h.beginRecovery
    split
    next heq =>
      rw [heq] at hb
      exact hb
    next heq =>
      rw [heq] at hb
      exact hb
  next => exact h

theorem Sound.pipeRiskEnd (h : Sound s w) (error : Bool) : Sound s (pipeRiskEnd r pass attempted error w).1 := by
  unfold Server.pipeRiskEnd
  split
  next =>
    have ht : Sound s (Server.tryRecovery r attempted pass.appendedPipeRisk w).1 := h.tryRecovery _
    split
    next heq =>
      rw [heq] at ht
      exact ht
    next heq =>
      rw [heq] at ht
      exact ht
  next => exact h

theorem Sound.parseEnd (h : Sound s w) : Sound s (parseEnd r pass attempted w).1 := by
  unfold Server.parseEnd
  split
  next =>
    have ht : Sound s (Server.tryRecovery r attempted pass.appendedInvalid w).1 := h.tryRecovery _
    split
    next heq =>
      rw [heq] at ht
      exact ht
    next heq =>
      rw [heq] at ht
      exact ht.pipeRiskEnd true
    next heq =>
      rw [heq] at ht
      exact ht.pipeRiskEnd pass.errorFinish
  next => exact h.pipeRiskEnd pass.errorFinish

theorem Sound.decodePass (h : Sound s w) (promptTokens : Int) : Sound s (decodePass r promptTokens pass attempted w).1 := by
  have hstart : Sound s (if w.protocol.phase = .recovery then (serverProtocolTransition w .decode).1 else w) := by
    split
    next => exact h.transition rfl (by decide)
    next => exact h
  have hpub := hstart.progresses (fun completion => (promptTokens, completion)) pass.published
  simp only [Server.decodePass]
  split
  next =>
    have ht : Sound s (Server.tryRecovery r attempted pass.appendedUnterminated _).1 := hpub.tryRecovery _
    split
    next heq =>
      rw [heq] at ht
      exact ht
    next heq =>
      rw [heq] at ht
      exact ht.parseEnd
  next => exact hpub.parseEnd

theorem Sound.decodeAgain (h : Sound s w) (promptTokens : Int) (passes : Nat → DecodePass) (n : Nat) :
    Sound s (decodeAgain r promptTokens passes n attempted w).1 := by
  induction n, attempted, w using decodeAgain.induct r promptTokens passes with
  | case1 n attempted w w' completion error heq =>
    rw [Server.decodeAgain]
    have hp : Sound s (Server.decodePass r promptTokens (passes n) attempted w).1 := h.decodePass promptTokens
    split
    next heq' =>
      rw [heq'] at hp
      exact hp
    next heq' =>
      rw [heq] at heq'
      cases heq'
  | case2 n attempted w w' heq ih =>
    rw [Server.decodeAgain]
    have hp : Sound s (Server.decodePass r promptTokens (passes n) attempted w).1 := h.decodePass promptTokens
    rw [heq] at hp
    split
    next heq' =>
      rw [heq] at heq'
      cases heq'
    next heq' =>
      rw [heq] at heq'
      cases heq'
      exact ih hp

end

theorem Sound.generateJob (h : Sound s w) (r : JobRequest) (e : JobEvents) : Sound s (generateJob r e w) := by
  have hpre := h.progresses (fun current => (current, 0)) e.prefilled
  unfold Server.generateJob
  split
  next => exact h
  next =>
    split
    next => exact h
    next =>
      simp only []
      split
      next => exact (hpre.finish (by split <;> rfl)).1
      next => exact hpre
      next =>
        split
        next => exact hpre
        next =>
          have hdec : Sound s (serverProtocolTransition (serverProtocolProgress _ e.promptTokens 0) .decode).1 :=
            (hpre.progress e.promptTokens 0).transition rfl (by decide)
          split
          next => exact hdec
          next =>
            have hend : Sound s (Server.decodeAgain r e.promptTokens e.passes 0 false _).1 :=
              hdec.decodeAgain e.promptTokens e.passes 0
            refine (((hend.progress _ _).transition rfl (by decide)).finish ?_).1
            split
            next => rfl
            next => split <;> rfl

/-! ## The worker -/

/-- A job's record: it ended, once, in a phase that is counted, and with one recovery at most. -/
structure Accounted (before after : Counters) (history : List ProtocolState) : Prop where
  ended : ∃ p, history.getLast? = some p ∧ isTerminal p.phase = true ∧ after.counts = (before.count p.phase).counts
  frozen : history.Pairwise fun p q => isTerminal p.phase = true → q = p
  recovery : recoveryEntries history ≤ 1

theorem Sound.accounted (h : Sound s w) (hend : w.protocol.terminal = true) : Accounted s w.server w.history := by
  obtain ⟨before, hlast⟩ := h.last
  constructor
  case ended =>
    refine ⟨w.protocol, by rw [hlast]; simp, by rw [← h.terminal_flag]; exact hend, ?_⟩
    have hc := h.counts
    rwa [if_pos hend] at hc
  case frozen =>
    refine h.frozen.imp_of_mem fun {p q} hp _ hpq hterm => hpq ?_
    rw [h.flag p hp]
    exact hterm
  case recovery =>
    have := h.recovery
    split at this <;> omega

theorem takeJob_sound (s : Counters) (j : Job) : Sound s (takeJob s j) := by
  constructor
  case last => exact ⟨[], rfl⟩
  case flag =>
    intro p hp
    rw [List.mem_singleton.mp hp]
    rfl
  case frozen => exact List.pairwise_singleton _ _
  case recovery => exact Nat.zero_le _
  case inRecovery => exact fun hp => by cases hp
  case counts => rfl

theorem Sound.handleJob (h : Sound s w) (j : Job) : Sound s (handleJob j w) := by
  unfold Server.handleJob
  split
  next => exact ((h.transition rfl (by decide)).finish rfl).1
  next => exact (h.transition rfl (by decide)).generateJob _ _

/-- Whatever a job comes back with, it leaves the worker with an outcome. -/
theorem Sound.finishJob (h : Sound s w) (j : Job) : Sound s (finishJob j w) ∧ (finishJob j w).protocol.terminal = true := by
  unfold Server.finishJob
  split
  next => exact h.finish (by split <;> rfl)
  next hend => exact ⟨h, by simpa using hend⟩

theorem workerJob_accounted (s : Counters) (j : Job) : Accounted s (workerJob s j).1 (workerJob s j).2 := by
  obtain ⟨hsound, hend⟩ := ((takeJob_sound s j).handleJob j).finishJob j
  obtain ⟨⟨p, hp, hterm, hcounts⟩, hfrozen, hrec⟩ := hsound.accounted hend
  exact ⟨⟨p, hp, hterm, hcounts⟩, hfrozen, hrec⟩

/-- The requests a server has counted, of any outcome. -/
def Counters.total (s : Counters) : Nat := s.completedRequests + s.failedRequests + s.cancelledRequests

theorem count_total (s : Counters) (phase : Phase) : (s.count phase).total = s.total + 1 := by
  unfold Counters.count Counters.total
  split
  next =>
    simp only []
    omega
  next =>
    split
    next =>
      simp only []
      omega
    next =>
      simp only []
      omega

/-- Every job of every sequence is accounted for, on every path, and each is counted once. -/
theorem worker_main_accounts (s : Counters) (jobs : List Job) :
    (workerMain s jobs).2.length = jobs.length ∧ (∀ record ∈ (workerMain s jobs).2, Accounted record.1 record.2.1 record.2.2) ∧
      (workerMain s jobs).1.total = s.total + jobs.length := by
  induction jobs generalizing s with
  | nil => exact ⟨rfl, fun record hr => absurd hr List.not_mem_nil, rfl⟩
  | cons j jobs ih =>
    obtain ⟨hlen, hall, htotal⟩ := ih (workerJob s j).1
    have hj := workerJob_accounted s j
    refine ⟨?_, fun record hr => ?_, ?_⟩
    · change (workerMain (workerJob s j).1 jobs).2.length + 1 = jobs.length + 1
      rw [hlen]
    · rcases List.mem_cons.mp hr with rfl | hr
      · exact hj
      · exact hall record hr
    · obtain ⟨p, -, -, hcounts⟩ := hj.ended
      have hone : (workerJob s j).1.total = s.total + 1 := by
        rw [← count_total s p.phase]
        simp only [Counters.counts, Prod.mk.injEq] at hcounts
        simp only [Counters.total, hcounts]
      change (workerMain (workerJob s j).1 jobs).1.total = s.total + (jobs.length + 1)
      rw [htotal, hone]
      omega

end Ds4.Server
