import Ds4.Dist.PrefixSafe
import Ds4.Dist.Coordinator

/- Finished operations of the coordinator's session.

   PROVED here: over every sequence of sync, eval and load calls, with every failure
   and any network between and during them, a call that returns 0 leaves the session
   valid with exactly its tokens and with logits that were made on every hop from
   exactly the tokens before them, provided no sync asks for the very timeline that a
   failed call left behind and none starts from an empty valid timeline
   (`finished_operations`). The first proviso is needed: a failed eval and a sync of
   the same tokens expose the logits of the shorter history (`stale_logits_returned`). -/
namespace Ds4.Dist

variable {H : Type} {cfg : Config H} {worker : Nat} {work : Work H} {fate : Fate} {ws : Option (WorkerSession H)}
  {sub : Submission H} {outcome : Outcome} {session : SliceSession}

/-! ## Workers, where no span starts at position 0 without a reset -/

/-- A hash over an undamaged KV names its tokens; over a damaged one it may say anything. -/
structure WorkerWeak (cfg : Config H) (ws : WorkerSession H) : Prop where
  sound : ws.session.Sound
  hash : ∀ h tokens, ws.tokenHash = some h → ws.session.kv = .held tokens → h = cfg.hash.ofPrefix tokens

theorem WorkerOk.weak {ws : WorkerSession H} (h : WorkerOk cfg ws) : WorkerWeak cfg ws := by
  refine ⟨h.sound, fun hash tokens hh hkv => ?_⟩
  obtain ⟨tokens', hkv', heq⟩ := h.hash hash hh
  rw [heq, Kv.held.inj (hkv'.symm.trans hkv)]

theorem workerWeak_getSession (h : ∀ w, ws = some w → WorkerWeak cfg w) : WorkerWeak cfg (getSession ws) := by
  cases ws with
  | none => exact ⟨SliceSession.sound_create, fun _ _ h => (by cases h)⟩
  | some w => exact h w rfl

theorem handleSnapshotLoad_weak (hws : ∀ w, ws = some w → WorkerWeak cfg w) (tokens : List Nat) (fate : Fate) :
    ∀ w, handleSnapshotLoad cfg ws tokens fate = some w → WorkerWeak cfg w := by
  cases fate with
  | refused => exact hws
  | processed resetOk outcome =>
    intro w hw
    have hsound := (workerWeak_getSession hws).sound.load tokens outcome
    rw [handleSnapshotLoad] at hw
    cases outcome with
    | done =>
      rw [← Option.some.inj hw]
      exact ⟨hsound, fun h tokens' hh hkv => by rw [← Option.some.inj hh, Kv.held.inj hkv]⟩
    | refused | invalidated | failed =>
      rw [← Option.some.inj hw]
      exact ⟨hsound, fun _ _ hh => (by cases hh)⟩

variable [DecidableEq H]

theorem evalWork_weak (worker : Nat) (outcome : Outcome) {tokenHash : H} (hs : session.Sound) (hc : Carries sub cfg work)
    (hmiss : ∀ tokens, session.kv = .held tokens → tokenHash = cfg.hash.ofPrefix tokens)
    (hheld : ∀ after, tokenHash = work.prefixHash →
      session.evalLayerSlice (cfg.workerCtx worker) work.tokens work.pos0 outcome = (after, true) →
      session.kv = .held sub.before ∧ session.checkpoint = sub.before) :
    WorkerWeak cfg (evalWork cfg worker session tokenHash work outcome).1 ∧
      ∀ made, (evalWork cfg worker session tokenHash work outcome).2 = some made → made = sub.made (some worker) := by
  rw [evalWork]
  split_ifs with hne
  · exact ⟨⟨hs, fun h tokens hh hkv => (Option.some.inj hh).symm.trans (hmiss tokens hkv)⟩, fun _ h => (by cases h)⟩
  have hmatch := not_ne_iff.mp hne
  rcases he : session.evalLayerSlice (cfg.workerCtx worker) work.tokens work.pos0 outcome with ⟨after, ok⟩
  cases ok with
  | false => exact ⟨⟨(hs.eval_false he).1, fun _ _ h => (by cases h)⟩, fun _ h => (by cases h)⟩
  | true =>
    obtain ⟨hkv, hcp⟩ := hheld after hmatch he
    refine ⟨(evaluated_ok hc hkv hcp he).weak, fun made hm => ?_⟩
    rw [← Option.some.inj hm, Submission.made, hkv, hc.pos, hc.tokens]

/-- The step lemma of a worker: past position 0 the validity flag alone keeps a damaged KV out. -/
theorem processWork_weak (hinj : Function.Injective cfg.hash.ofPrefix) (hws : ∀ w, ws = some w → WorkerWeak cfg w)
    (hc : Carries sub cfg work) (hz : work.resetSession = false → work.pos0 ≠ 0) :
    (∀ w, (processWork cfg worker ws work fate).1 = some w → WorkerWeak cfg w) ∧
      ∀ made, (processWork cfg worker ws work fate).2 = some made → made = sub.made (some worker) := by
  cases fate with
  | refused => exact ⟨hws, fun _ h => (by cases h)⟩
  | processed resetOk outcome =>
    have hok := workerWeak_getSession hws
    rw [processWork]
    split_ifs with hwf hreset hfail
    · exact ⟨hws, fun _ h => (by cases h)⟩
    · have hfalse : resetOk = false := by simpa using hfail
      refine ⟨fun w hw => ?_, fun _ h => (by cases h)⟩
      rw [← Option.some.inj hw]
      refine ⟨SliceSession.sound_reset (getSession ws).session resetOk, fun h tokens hh hkv => ?_⟩
      rw [hfalse] at hkv
      exact Kv.noConfusion hkv
    · have htrue : resetOk = true := by simpa using hfail
      have hbefore := hc.reset hreset
      have hrun := evalWork_weak worker outcome (SliceSession.sound_reset (getSession ws).session resetOk) hc
        (fun tokens hkv => show cfg.hash.init = _ by rw [htrue] at hkv; rw [← Kv.held.inj hkv]; rfl)
        (fun _ _ _ => by rw [htrue, hbefore]; exact ⟨rfl, rfl⟩)
      refine ⟨fun w hw => ?_, hrun.2⟩
      rw [← Option.some.inj hw]
      exact hrun.1
    · have hnames : ∀ tokens, (getSession ws).session.kv = .held tokens →
          (getSession ws).tokenHash.getD (cfg.hash.ofPrefix (getSession ws).session.checkpoint) =
            cfg.hash.ofPrefix tokens := by
        intro tokens hkv
        cases hth : (getSession ws).tokenHash with
        | some h => exact hok.hash h tokens hth hkv
        | none => rw [Option.getD_none, hok.sound.timeline tokens hkv]
      have hrun := evalWork_weak worker outcome hok.sound hc hnames (fun after hmatch he => ?_)
      · refine ⟨fun w hw => ?_, hrun.2⟩
        rw [← Option.some.inj hw]
        exact hrun.1
      · -- not at position 0, so the session is valid and its KV holds its timeline
        obtain ⟨-, hcheck, -⟩ := SliceSession.evalLayerSlice_true he
        have hpos := SliceSession.checkTimeline_pos hcheck
        split_ifs at hpos with hv
        · have hkv := hok.sound.valid hv
          have hcp : (getSession ws).session.checkpoint = sub.before :=
            hinj (by rw [← hnames _ hkv, hmatch, hc.prefixHash])
          exact ⟨by rw [hkv, hcp], hcp⟩
        · exact absurd hpos (hz (by simpa using hreset))

/-! ## One span -/

/-- The invariant of the system under the coordinator's calls. -/
abbrev Calm (cfg : Config H) (sys : System H) : Prop := Inv (WorkerWeak cfg) False cfg sys

variable {sys : System H}

theorem net_calm (hinj : Function.Injective cfg.hash.ofPrefix) (h : Calm cfg sys) (w : Weather) :
    Calm cfg (sys.step cfg w.event) ∧ (sys.step cfg w.event).coordinator = sys.coordinator ∧
      (sys.step cfg w.event).submitted = sys.submitted := by
  cases w with
  | deliver i fate =>
    refine ⟨deliver_inv h i fate fun work sub hwork hc hz => ?_, ?_⟩
    · exact processWork_weak hinj (h.workers (System.target work)) hc hz
    · simp only [Weather.event, System.step, System.deliver]
      split
      · exact ⟨rfl, rfl⟩
      · split
        · exact ⟨rfl, rfl⟩
        · rw [System.handOn]
          split_ifs <;> exact ⟨rfl, rfl⟩
  | lose i => exact ⟨h.eraseWork i, rfl, rfl⟩
  | reconnect worker => exact ⟨h.setWorker worker (fun _ hw => (by cases hw)), rfl, rfl⟩

/-- What a submission that goes out says: it stands on the timeline, which grew by its span. -/
structure Sent (sys sys' : System H) (reset : Bool) (span route : List Nat) (sub : Submission H) : Prop where
  submitted : sys'.submitted = sys.submitted ++ [sub]
  stands : sub.before = if reset then [] else sys.coordinator.checkpoint
  covers : sub.span = span
  timeline : sys'.coordinator.checkpoint = sub.before ++ sub.span
  valid : sys'.coordinator.checkpointValid = true
  accepted : route = [] → ∃ result, sys'.accepted = sys.accepted ++ [(sub, result)]
  nonempty : span ≠ []

omit [DecidableEq H] in
theorem evalSpan_cases (cfg : Config H) (numbered : System H) (requestId : Nat) (session : SliceSession) (reset : Bool)
    (span route : List Nat) (outcome : Outcome) (hbefore : session.checkpoint = if reset then [] else numbered.coordinator.checkpoint) :
    (numbered.evalSpan cfg requestId session reset span route outcome).submitted = numbered.submitted ∨
      ∃ sub, Sent numbered (numbered.evalSpan cfg requestId session reset span route outcome) reset span route sub := by
  rw [System.evalSpan]
  rcases he : session.evalLayerSlice cfg.ctxSize span session.checkpoint.length outcome with ⟨after, ok⟩
  cases ok with
  | false => exact .inl rfl
  | true =>
    obtain ⟨-, hcheck, hafter⟩ := SliceSession.evalLayerSlice_true he
    have hspan : span ≠ [] := by
      rintro rfl
      simp [SliceSession.checkTimeline] at hcheck
    refine .inr ?_
    simp only
    split_ifs with hroute
    · exact ⟨_, rfl, hbefore, rfl, by rw [hafter], by rw [hafter], fun _ => ⟨_, rfl⟩, hspan⟩
    · exact ⟨_, rfl, hbefore, rfl, by rw [hafter], by rw [hafter], fun h => absurd h hroute, hspan⟩

omit [DecidableEq H] in
theorem submit_cases (cfg : Config H) (sys : System H) (reset : Bool) (span route : List Nat) (resetOk : Bool)
    (outcome : Outcome) :
    (sys.submit cfg reset span route resetOk outcome).submitted = sys.submitted ∨
      ∃ sub, Sent sys (sys.submit cfg reset span route resetOk outcome) reset span route sub := by
  have hspan : ∀ session r, (session.checkpoint = if r then [] else sys.coordinator.checkpoint) →
      ({ sys with nextRequest := sys.nextRequest + 1 }.evalSpan cfg sys.nextRequest session r span route outcome).submitted =
          sys.submitted ∨
        ∃ sub, Sent sys ({ sys with nextRequest := sys.nextRequest + 1 }.evalSpan cfg sys.nextRequest session r span route
          outcome) r span route sub := by
    intro session r hstands
    rcases evalSpan_cases cfg { sys with nextRequest := sys.nextRequest + 1 } sys.nextRequest session r span route outcome
      hstands with h | ⟨sub, h⟩
    · exact .inl h
    · exact .inr ⟨sub, h.submitted, h.stands, h.covers, h.timeline, h.valid, h.accepted, h.nonempty⟩
  simp only [System.submit]
  split_ifs with hreset hok hvalid
  · exact hreset ▸ hspan (sys.coordinator.layerSliceReset resetOk) true rfl
  · exact .inl rfl
  · have hfalse : reset = false := by simpa using hreset
    exact hfalse ▸ hspan sys.coordinator false rfl
  · exact .inl rfl

/-! ## A list of spans -/

/-- The logits are those of the model after `tokens`: restored with them, or made by the coordinator
    and every worker of a route, each from the KV of exactly the tokens before the last span. -/
def Logits.After (tokens : List Nat) : Logits → Prop
  | .unset => False
  | .restored saved => saved = tokens
  | .computed trace => ∃ before span route : List Nat, before ++ span = tokens ∧
      trace = (none :: route.map some).map fun hop => ⟨hop, .held before, before.length, span⟩

omit [DecidableEq H] in
theorem after_trace (sub : Submission H) : Logits.After (sub.before ++ sub.span) (.computed (sub.trace sub.route.length)) := by
  refine ⟨sub.before, sub.span, sub.route, rfl, ?_⟩
  rw [Submission.trace, List.take_length]
  rfl

/-- A session that finished on `total`. -/
structure Finished (total : List Nat) (st : Distributed H) : Prop where
  valid : st.sys.coordinator.checkpointValid = true
  timeline : st.sys.coordinator.checkpoint = total
  logits : st.logits.After total

/-- Chunks on their way: what is evaluated so far and what is left make up `total`, and the
    last submission that waits ends where the timeline ends. -/
structure Going (total : List Nat) (todo : List (List Nat)) (waiting : List (Submission H)) (st : Distributed H) : Prop where
  valid : st.sys.coordinator.checkpointValid = true
  timeline : st.sys.coordinator.checkpoint ++ todo.flatten = total
  nonempty : st.sys.coordinator.checkpoint ≠ []
  waits : ∀ sub ∈ waiting, sub ∈ st.sys.submitted
  last : ∀ sub, waiting.getLast? = some sub → sub.before ++ sub.span = st.sys.coordinator.checkpoint
  logits : waiting = [] → todo = [] → st.logits.After total

/-- Chunks that have not started: the first of them resets the session. -/
structure Starting (total : List Nat) (todo : List (List Nat)) (waiting : List (Submission H)) (resets : Bool) : Prop where
  resets : resets = true
  some : todo ≠ []
  timeline : todo.flatten = total
  quiet : waiting = []

variable {total : List Nat} {todo : List (List Nat)} {waiting : List (Submission H)} {st : Distributed H} {a : Attempt}
  {first : Bool}

omit [DecidableEq H] in
theorem Going.finished (h : Going total [] [] st) : Finished total st :=
  ⟨h.valid, by simpa using h.timeline, h.logits rfl rfl⟩

omit [DecidableEq H] in
/-- The network leaves an attempt as it is. -/
theorem Going.net (h : Going total todo waiting st) {sys : System H} (hcoord : sys.coordinator = st.sys.coordinator)
    (hsub : sys.submitted = st.sys.submitted) : Going total todo waiting { st with sys := sys } := by
  constructor
  · exact (congrArg SliceSession.checkpointValid hcoord).trans h.valid
  · simpa only [hcoord] using h.timeline
  · simpa only [hcoord] using h.nonempty
  · simpa only [hsub] using h.waits
  · simpa only [hcoord] using h.last
  · exact h.logits

omit [DecidableEq H] in
/-- The timeline after a chunk went out, and what is left. -/
theorem Sent.rest {sys' : System H} {chunk route : List Nat} {resets : Bool}
    (hsent : Sent st.sys sys' resets chunk route sub)
    (hgo : Starting total (chunk :: todo) waiting resets ∨ resets = false ∧ Going total (chunk :: todo) waiting st) :
    sys'.coordinator.checkpoint ++ todo.flatten = total := by
  have hcat : sys'.coordinator.checkpoint = sub.before ++ chunk := by rw [hsent.timeline, hsent.covers]
  rw [hcat, hsent.stands]
  rcases hgo with hgo | ⟨hfalse, hgo⟩
  · rw [if_pos hgo.resets, ← hgo.timeline]
    simp
  · rw [hfalse, ← hgo.timeline]
    simp

omit [DecidableEq H] in
/-- A chunk that went out is the last one that waits. -/
theorem Sent.going {sys' : System H} {chunk route : List Nat} {resets : Bool}
    (hsent : Sent st.sys sys' resets chunk route sub)
    (hgo : Starting total (chunk :: todo) waiting resets ∨ resets = false ∧ Going total (chunk :: todo) waiting st) :
    Going total todo (waiting ++ [sub]) { st with sys := sys' } := by
  refine ⟨hsent.valid, hsent.rest hgo, ?_, fun other ho => ?_, fun other ho => ?_, fun hnil => ?_⟩
  · rw [hsent.timeline, hsent.covers]
    simp [hsent.nonempty]
  · rw [hsent.submitted]
    rcases List.mem_append.mp ho with ho | ho
    · refine List.mem_append_left _ ?_
      rcases hgo with hgo | ⟨-, hgo⟩
      · rw [hgo.quiet] at ho
        exact absurd ho List.not_mem_nil
      · exact hgo.waits other ho
    · exact List.mem_append_right _ ho
  · rw [List.getLast?_concat] at ho
    rw [← Option.some.inj ho]
    exact hsent.timeline.symm
  · exact absurd hnil (by simp)

omit [DecidableEq H] in
/-- A chunk that the coordinator evaluates alone has its logits at once. -/
theorem Sent.alone {sys' : System H} {chunk route : List Nat} {resets : Bool}
    (hsent : Sent st.sys sys' resets chunk route sub)
    (hgo : Starting total (chunk :: todo) ([] : List (Submission H)) resets ∨
      resets = false ∧ Going total (chunk :: todo) [] st)
    {logits : Logits} (hlogits : logits.After (sub.before ++ sub.span)) : Going total todo [] ⟨sys', logits⟩ := by
  have hrest := hsent.rest hgo
  refine ⟨hsent.valid, hrest, ?_, fun _ ho => absurd ho List.not_mem_nil, fun _ ho => (nomatch ho), fun _ hnil => ?_⟩
  · rw [hsent.timeline, hsent.covers]
    simp [hsent.nonempty]
  · rw [← hrest, hnil, hsent.timeline]
    simpa using hlogits

omit [DecidableEq H] in
/-- An answer to the oldest submission, without logits: more answers or chunks must follow. -/
theorem Going.answered (h : Going total todo (sub :: waiting) st) {result : Result H}
    (hmore : ¬(todo = [] ∧ waiting = [])) :
    Going total todo waiting { st with sys := { st.sys with accepted := st.sys.accepted ++ [(sub, result)] } } := by
  refine ⟨h.valid, h.timeline, h.nonempty, fun other ho => h.waits other (List.mem_cons_of_mem _ ho), fun other ho => ?_,
    fun hw ht => absurd ⟨ht, hw⟩ hmore⟩
  cases waiting with
  | nil => exact nomatch ho
  | cons next waiting => exact h.last other (by rw [List.getLast?_cons_cons]; exact ho)

omit [DecidableEq H] in
/-- An answer whose logits are taken. -/
theorem Going.taken (h : Going total todo (sub :: waiting) st) {result : Result H} {logits : Logits}
    (hlogits : waiting = [] → logits.After (sub.before ++ sub.span)) :
    Going total todo waiting ⟨{ st.sys with accepted := st.sys.accepted ++ [(sub, result)] }, logits⟩ := by
  refine ⟨h.valid, h.timeline, h.nonempty, fun other ho => h.waits other (List.mem_cons_of_mem _ ho), fun other ho => ?_,
    fun hw ht => ?_⟩
  · cases waiting with
    | nil => exact nomatch ho
    | cons next waiting => exact h.last other (by rw [List.getLast?_cons_cons]; exact ho)
  · have hlast : sub.before ++ sub.span = st.sys.coordinator.checkpoint := h.last sub (by rw [hw]; rfl)
    have htotal : total = sub.before ++ sub.span := by
      rw [hlast, ← h.timeline, ht]
      simp
    exact htotal ▸ hlogits hw

/-- The run lemma of an attempt: whatever the moves, the system stays right, and all chunks
    sent and answered is a finished session. -/
theorem evalChunks_calm (hinj : Function.Injective cfg.hash.ofPrefix) (a : Attempt) (total : List Nat) (first : Bool)
    (moves : List Move) (todo : List (List Nat)) (waiting : List (Submission H)) (st : Distributed H)
    (h : Calm cfg st.sys) (hquiet : a.route = [] → waiting = [])
    (hgo : Starting total todo waiting (a.reset && first) ∨ (a.reset && first) = false ∧ Going total todo waiting st) :
    Calm cfg (evalChunks cfg a first moves todo waiting st).1.sys ∧
      ((evalChunks cfg a first moves todo waiting st).2 = true →
        Finished total (evalChunks cfg a first moves todo waiting st).1) := by
  induction moves generalizing first todo waiting st with
  | nil =>
    refine ⟨h, fun hok => ?_⟩
    simp only [evalChunks, Bool.and_eq_true, List.isEmpty_iff] at hok ⊢
    obtain ⟨rfl, rfl⟩ := hok
    rcases hgo with hgo | ⟨-, hgo⟩
    · exact absurd rfl hgo.some
    · exact hgo.finished
  | cons move moves ih =>
    have hgiveUp : ∀ sys : System H, Calm cfg sys → Calm cfg (({ st with sys := sys }, false) : Distributed H × Bool).1.sys ∧
        ((({ st with sys := sys }, false) : Distributed H × Bool).2 = true →
          Finished total (({ st with sys := sys }, false) : Distributed H × Bool).1) :=
      fun _ hcalm => ⟨hcalm, fun hok => Bool.noConfusion hok⟩
    cases move with
    | net w =>
      obtain ⟨hcalm, hcoord, hsub⟩ := net_calm hinj h w
      exact ih first todo waiting _ hcalm hquiet (hgo.imp_right fun hgo => ⟨hgo.1, hgo.2.net hcoord hsub⟩)
    | send resetOk outcome =>
      cases todo with
      | nil => exact ih first [] waiting st h hquiet hgo
      | cons chunk todo =>
        rw [evalChunks]
        by_cases hskip : (!a.pipelined && !waiting.isEmpty) = true
        · rw [if_pos hskip]
          exact ih first (chunk :: todo) waiting st h hquiet hgo
        rw [if_neg hskip]
        have hz : (a.reset && first) = false → st.sys.coordinator.checkpoint = [] → False := by
          intro hfalse hnil
          rcases hgo with hgo | ⟨-, hgo⟩
          · exact Bool.noConfusion (hfalse.symm.trans hgo.resets)
          · exact hgo.nonempty hnil
        have hcalm := submit_inv h (a.reset && first) chunk a.route resetOk outcome hz
        have hcases := submit_cases cfg st.sys (a.reset && first) chunk a.route resetOk outcome
        simp only [sendChunk]
        generalize st.sys.submit cfg (a.reset && first) chunk a.route resetOk outcome = sys at hcalm hcases ⊢
        rcases hcases with hsame | ⟨sub, hsent⟩
        · rw [hsame, List.drop_length]
          exact hgiveUp sys hcalm
        · rw [hsent.submitted, List.drop_left]
          by_cases hroute : a.route = []
          · -- the coordinator has all the layers
            obtain ⟨result, haccepted⟩ := hsent.accepted hroute
            have htrace := hcalm.accepted sub result (by rw [haccepted]; exact List.mem_append_right _ (List.mem_singleton_self _))
            have hwait := hquiet hroute
            subst hwait
            simp only [if_pos hroute, haccepted, List.drop_left]
            refine ih false todo [] _ hcalm (fun _ => rfl) (.inr ⟨Bool.and_false _, hsent.alone hgo ?_⟩)
            rw [htrace]
            exact after_trace sub
          · simp only [if_neg hroute]
            exact ih false todo (waiting ++ [sub]) _ hcalm (fun hr => absurd hr hroute)
              (.inr ⟨Bool.and_false _, hsent.going hgo⟩)
    | reply i headOk =>
      cases waiting with
      | nil => exact ih first todo [] st h hquiet hgo
      | cons sub waiting =>
        have hquiet' : a.route = [] → waiting = [] := fun hr => absurd (hquiet hr) (List.cons_ne_nil _ _)
        rcases hgo with hgo | ⟨hfirst, hgo⟩
        · exact nomatch hgo.quiet
        rw [evalChunks]
        cases hresult : st.sys.results[i]? with
        | none => exact hgiveUp st.sys h
        | some result =>
          simp only
          by_cases hmatch : result.requestId = sub.requestId ∧ result.resultHash = sub.expectedHash
          swap
          · rw [if_neg hmatch]
            exact hgiveUp st.sys h
          rw [if_pos hmatch]
          have htrace := h.result_trace (List.mem_of_getElem? hresult) (hgo.waits sub List.mem_cons_self) hmatch.1
          have hcalm := h.addAccepted htrace
          split_ifs with hfinal hhead
          · refine ih first todo waiting _ hcalm hquiet' (.inr ⟨hfirst, hgo.answered fun hnone => ?_⟩)
            simp [hnone.1, hnone.2] at hfinal
          · exact ih first todo waiting _ hcalm hquiet'
              (.inr ⟨hfirst, hgo.taken fun _ => by rw [htrace]; exact after_trace sub⟩)
          · exact ⟨hcalm, fun hok => hok.elim⟩

/-! ## The calls -/

theorem flatten_spans {cap : Nat} (hcap : cap ≠ 0) (fuel : Nat) (tokens : List Nat) (hfuel : tokens.length ≤ fuel) :
    (spans cap fuel tokens).flatten = tokens := by
  induction fuel generalizing tokens with
  | zero =>
    rw [List.eq_nil_of_length_eq_zero (Nat.le_zero.mp hfuel)]
    rfl
  | succ fuel ih =>
    cases tokens with
    | nil => rfl
    | cons token tokens =>
      have hdrop : ((token :: tokens).drop cap).length ≤ fuel := by
        rw [List.length_drop, List.length_cons]
        rw [List.length_cons] at hfuel
        omega
      calc (spans cap (fuel + 1) (token :: tokens)).flatten
          = (token :: tokens).take cap ++ (spans cap fuel ((token :: tokens).drop cap)).flatten := rfl
        _ = (token :: tokens).take cap ++ (token :: tokens).drop cap := by rw [ih _ hdrop]
        _ = token :: tokens := List.take_append_drop _ _

theorem flatten_chunks {cap : Nat} (hcap : cap ≠ 0) (tokens : List Nat) : (chunks cap tokens).flatten = tokens :=
  flatten_spans hcap _ _ (Nat.le_refl _)

theorem chunks_ne_nil {cap : Nat} (hcap : cap ≠ 0) {tokens : List Nat} (h : tokens ≠ []) : chunks cap tokens ≠ [] := by
  intro hnil
  have := flatten_chunks hcap tokens
  rw [hnil] at this
  exact h this.symm

/-- What a call keeps, and what its success means. -/
def Ends (cfg : Config H) (total : List Nat) (out : Distributed H × Bool) : Prop :=
  Calm cfg out.1.sys ∧ (out.2 = true → Finished total out.1)

variable {script : Script} {t : Tries}

omit [DecidableEq H] in
theorem ends_refused (h : Calm cfg st.sys) : Ends cfg total (st, false) := ⟨h, fun hok => Bool.noConfusion hok⟩

theorem prefillPrompt_ends (hinj : Function.Injective cfg.hash.ofPrefix) (h : Calm cfg st.sys) (cap : Nat) (t : Tries)
    (ht : total ≠ []) : Ends cfg total (prefillPrompt cfg cap t total st) := by
  rw [prefillPrompt]
  split_ifs with hcap
  · exact ends_refused h
  · exact evalChunks_calm hinj _ total true _ _ _ st h (fun _ => rfl)
      (.inl ⟨rfl, chunks_ne_nil hcap ht, flatten_chunks hcap total, rfl⟩)

theorem orRebuild_ends (hinj : Function.Injective cfg.hash.ofPrefix) (script : Script) (ht : total ≠ [])
    {tried : Distributed H × Bool} (h : Ends cfg total tried) : Ends cfg total (orRebuild cfg script total tried) := by
  rw [orRebuild]
  split_ifs with hok
  · exact h
  · rw [rebuildFromTranscript]
    cases script.rebuild with
    | none => exact ends_refused h.1
    | some t => exact prefillPrompt_ends hinj h.1 script.chunkCap t ht

/-- More chunks on a valid timeline that is not empty. -/
theorem suffix_ends (hinj : Function.Injective cfg.hash.ofPrefix) (h : Calm cfg st.sys) (a : Attempt) (hreset : a.reset = false)
    (moves : List Move) (hvalid : st.sys.coordinator.checkpointValid = true) (hsome : st.sys.coordinator.checkpoint ≠ [])
    (htodo : todo ≠ []) (htotal : st.sys.coordinator.checkpoint ++ todo.flatten = total) :
    Ends cfg total (evalChunks cfg a true moves todo [] st) :=
  evalChunks_calm hinj a total true moves todo [] st h (fun _ => rfl)
    (.inr ⟨by rw [hreset]; rfl, hvalid, htotal, hsome, fun _ hw => absurd hw List.not_mem_nil, fun _ hw => (nomatch hw),
      fun _ hnil => absurd hnil htodo⟩)

theorem sessionSync_ends (hinj : Function.Injective cfg.hash.ofPrefix) (h : Calm cfg st.sys) (prompt : List Nat)
    (script : Script) (hsome : st.sys.coordinator.checkpointValid = true → st.sys.coordinator.checkpoint ≠ [])
    (hcurrent : st.sys.coordinator.checkpointValid = true → st.sys.coordinator.checkpoint = prompt → st.logits.After prompt) :
    Ends cfg prompt (sessionSync cfg prompt script st) := by
  rw [sessionSync]
  by_cases hsize : prompt.length = 0 ∨ cfg.ctxSize ≤ prompt.length
  · rw [if_pos hsize]
    exact ends_refused h
  rw [if_neg hsize]
  have hprompt : prompt ≠ [] := fun hnil => hsize (.inl (by rw [hnil]; rfl))
  cases script.first with
  | none => exact ends_refused h
  | some t =>
    simp only
    by_cases hprefix : (st.sys.coordinator.checkpointValid && st.sys.coordinator.checkpoint.isPrefixOf prompt) = true
    swap
    · rw [if_neg hprefix]
      exact orRebuild_ends hinj script hprompt (prefillPrompt_ends hinj h script.chunkCap t hprompt)
    rw [if_pos hprefix]
    rw [Bool.and_eq_true] at hprefix
    obtain ⟨hvalid, hpre⟩ := hprefix
    have hpre := List.isPrefixOf_iff_prefix.mp hpre
    split_ifs with hlen hcap
    · have heq := hpre.eq_of_length hlen
      exact ⟨h, fun _ => ⟨hvalid, heq, hcurrent hvalid heq⟩⟩
    · exact ends_refused h
    · obtain ⟨suffix, rfl⟩ := hpre
      have hne : suffix ≠ [] := by
        rintro rfl
        exact hlen (by rw [List.append_nil])
      rw [List.drop_left]
      exact orRebuild_ends hinj script hprompt (suffix_ends hinj h _ rfl t.moves hvalid (hsome hvalid)
        (chunks_ne_nil hcap hne) (by rw [flatten_chunks hcap]))

theorem sessionEval_ends (hinj : Function.Injective cfg.hash.ofPrefix) (h : Calm cfg st.sys) (token : Nat)
    (script : Script) (hsome : st.sys.coordinator.checkpointValid = true → st.sys.coordinator.checkpoint ≠ []) :
    Ends cfg (st.sys.coordinator.checkpoint ++ [token]) (sessionEval cfg token script st) := by
  rw [sessionEval]
  split_ifs with hinvalid
  · exact ends_refused h
  have hvalid : st.sys.coordinator.checkpointValid = true := by simpa using hinvalid
  cases script.first with
  | none => exact ends_refused h
  | some t =>
    exact orRebuild_ends hinj script (by simp)
      (suffix_ends hinj h _ rfl t.moves hvalid (hsome hvalid) (by simp) (by simp))

theorem loadShards_calm (tokens : List Nat) (shards : List (Nat × Fate × Bool)) (h : Calm cfg sys) :
    Calm cfg (loadShards cfg tokens shards sys).1 ∧
      (loadShards cfg tokens shards sys).1.coordinator = sys.coordinator := by
  induction shards generalizing sys with
  | nil => exact ⟨h, rfl⟩
  | cons shard shards ih =>
    obtain ⟨worker, fate, replyOk⟩ := shard
    have hnext : Calm cfg (sys.step cfg (.loadRemote worker tokens fate)) :=
      h.setWorker worker (handleSnapshotLoad_weak (h.workers worker) tokens fate)
    rcases fate with _ | ⟨resetOk, _ | _ | _ | _⟩
    case processed.done =>
      rw [loadShards]
      split_ifs
      · exact ih hnext
      · exact ⟨hnext, rfl⟩
    all_goals exact ⟨hnext, rfl⟩

theorem sessionLoadPayload_ends (h : Calm cfg st.sys) (tokens : List Nat) (script : LoadScript) :
    Ends cfg tokens (sessionLoadPayload cfg tokens script st) := by
  rw [sessionLoadPayload]
  by_cases hheader : (!script.headerOk || decide (cfg.ctxSize ≤ tokens.length)) = true
  · rw [if_pos hheader]
    exact ends_refused h
  rw [if_neg hheader]
  have hlocal : Calm cfg (st.sys.step cfg (.loadLocal tokens script.outcome)) :=
    h.setCoordinator (h.coordinator.load tokens script.outcome)
  by_cases hdone : script.outcome = .done
  swap
  · simp only [if_pos hdone]
    exact ⟨hlocal, fun hok => Bool.noConfusion hok⟩
  simp only [ne_eq, hdone, not_true_eq_false, if_false]
  rw [hdone] at hlocal
  obtain ⟨hcalm, hcoord⟩ := loadShards_calm tokens script.shards hlocal
  rcases hl : loadShards cfg tokens script.shards (st.sys.step cfg (.loadLocal tokens .done)) with ⟨sys, ok⟩
  rw [hl] at hcalm hcoord
  cases ok with
  | false => exact ⟨hcalm, fun hok => Bool.noConfusion hok⟩
  | true =>
    simp only
    split_ifs
    · refine ⟨hcalm, fun _ => ⟨?_, ?_, rfl⟩⟩
      · exact congrArg SliceSession.checkpointValid hcoord
      · exact congrArg SliceSession.checkpoint hcoord
    · exact ⟨hcalm, fun hok => Bool.noConfusion hok⟩

/-! ## Sequences of calls -/

inductive Call where
  | sync (prompt : List Nat) (script : Script)
  | eval (token : Nat) (script : Script)
  | load (tokens : List Nat) (script : LoadScript)
  | net (w : Weather)

/-- The session, the tokens of the last call if it returned 0, and whether the call that last
    moved the session or the logits failed. -/
structure Served (H : Type) where
  st : Distributed H
  returned : Option (List Nat)
  behind : Bool

def Served.start : Served H := ⟨.start, none, false⟩

/-- A call that was to end on `total`. -/
def Served.after (s : Served H) (total : List Nat) (out : Distributed H × Bool) : Served H :=
  ⟨out.1, if out.2 then some total else none,
    !out.2 && (s.behind || out.1.sys.coordinator != s.st.sys.coordinator || out.1.logits != s.st.logits)⟩

def Served.step (cfg : Config H) (s : Served H) : Call → Served H
  | .sync prompt script => s.after prompt (sessionSync cfg prompt script s.st)
  | .eval token script => s.after (s.st.sys.coordinator.checkpoint ++ [token]) (sessionEval cfg token script s.st)
  | .load tokens script => s.after tokens (sessionLoadPayload cfg tokens script s.st)
  | .net w => { s with st := { s.st with sys := s.st.sys.step cfg w.event }, returned := none }

/-- A valid timeline is not empty when it is extended, and no sync asks for exactly what a failed
    call left. -/
def Allowed (s : Served H) : Call → Prop
  | .sync prompt _ => s.st.sys.coordinator.checkpointValid = true →
      s.st.sys.coordinator.checkpoint ≠ [] ∧ (s.st.sys.coordinator.checkpoint = prompt → s.behind = false)
  | .eval _ _ => s.st.sys.coordinator.checkpointValid = true → s.st.sys.coordinator.checkpoint ≠ []
  | _ => True

instance (s : Served H) : (call : Call) → Decidable (Allowed s call)
  | .sync .. => inferInstanceAs (Decidable (_ = true → _ ≠ [] ∧ (_ = _ → _ = false)))
  | .eval .. => inferInstanceAs (Decidable (_ = true → _ ≠ []))
  | .load .. => .isTrue trivial
  | .net _ => .isTrue trivial

/-- What a call that returned 0 promises. -/
def Kept (s : Served H) : Prop := ∀ total, s.returned = some total → Finished total s.st

structure Serving (cfg : Config H) (s : Served H) : Prop where
  calm : Calm cfg s.st.sys
  current : s.behind = false → s.st.sys.coordinator.checkpointValid = true →
    s.st.logits.After s.st.sys.coordinator.checkpoint
  kept : Kept s

omit [DecidableEq H] in
theorem Serving.after {s : Served H} (h : Serving cfg s) {out : Distributed H × Bool} (hends : Ends cfg total out) :
    Serving cfg (s.after total out) := by
  obtain ⟨st, ok⟩ := out
  cases ok with
  | true =>
    have hfin := hends.2 rfl
    refine ⟨hends.1, fun _ _ => ?_, fun tokens ht => ?_⟩
    · exact hfin.timeline ▸ hfin.logits
    · rw [← Option.some.inj ht]
      exact hfin
  | false =>
    refine ⟨hends.1, fun hb hv => ?_, fun _ ht => (by cases ht)⟩
    simp only [Served.after, Bool.not_false, Bool.true_and, Bool.or_eq_false_iff, bne_eq_false_iff_eq] at hb
    obtain ⟨⟨hb, hcoord⟩, hlogits⟩ := hb
    simp only [Served.after] at hv ⊢
    rw [hcoord] at hv ⊢
    rw [hlogits]
    exact h.current hb hv

theorem served_step (hinj : Function.Injective cfg.hash.ofPrefix) (s : Served H) (call : Call) (h : Serving cfg s)
    (hallowed : Allowed s call) : Serving cfg (s.step cfg call) := by
  cases call with
  | sync prompt script =>
    exact h.after (sessionSync_ends hinj h.calm prompt script (fun hv => (hallowed hv).1)
      fun hv heq => heq ▸ h.current ((hallowed hv).2 heq) hv)
  | eval token script => exact h.after (sessionEval_ends hinj h.calm token script hallowed)
  | load tokens script => exact h.after (sessionLoadPayload_ends h.calm tokens script)
  | net w =>
    obtain ⟨hcalm, hcoord, -⟩ := net_calm hinj h.calm w
    refine ⟨hcalm, fun hb hv => ?_, fun _ ht => (by cases ht)⟩
    have hcurrent := h.current hb (congrArg SliceSession.checkpointValid hcoord ▸ hv)
    rw [← hcoord] at hcurrent
    exact hcurrent

omit [DecidableEq H] in
theorem serving_start : Serving cfg Served.start :=
  ⟨inv_start, fun _ hv => Bool.noConfusion hv, fun _ ht => (by cases ht)⟩

/-- In every sequence of allowed calls each call that returns 0 has finished. -/
theorem finished_operations (hinj : Function.Injective cfg.hash.ofPrefix) (calls : List Call)
    (h : Runs.Admitted (Served.step cfg) Allowed Served.start calls) :
    Runs.Always (Served.step cfg) Kept Served.start calls :=
  h.always (served_step hinj) (fun _ hs => hs.kept) serving_start

/-- One span, delivered to the only worker of the route and answered by the `i`th result. -/
def roundTrip (i : Nat) : List Move := [.send true .done, .net (.deliver 0 (.processed true .done)), .reply i true]

/-- A prompt in two chunks, then a token whose frame is lost; the rebuild replays all three on
    another worker, and the last sync has nothing to do. -/
def replayedCalls : List Call :=
  [.sync [5, 6] ⟨some ⟨[0], false, roundTrip 0 ++ roundTrip 1⟩, 1, none⟩,
    .eval 7 ⟨some ⟨[0], false, [.send true .done, .net (.lose 0)]⟩, 4, some ⟨[1], false, roundTrip 2⟩⟩,
    .sync [5, 6, 7] ⟨some ⟨[1], false, []⟩, 4, none⟩]

theorem finished_operations_replayed :
    Runs.Always (Served.step sampleConfig) Kept Served.start replayedCalls :=
  finished_operations listHash_injective replayedCalls (by decide)

example : (Runs.run (Served.step sampleConfig) Served.start replayedCalls).returned = some [5, 6, 7] := by decide

/-- A token whose frame is lost, no route for the rebuild, and a sync of the same tokens. -/
def staleCalls : List Call :=
  [.sync [5] ⟨some ⟨[0], false, roundTrip 0⟩, 4, none⟩,
    .eval 6 ⟨some ⟨[0], false, [.send true .done, .net (.lose 0)]⟩, 4, none⟩,
    .sync [5, 6] ⟨some ⟨[0], false, []⟩, 4, none⟩]

/-- The sync of two tokens returns 0 with the logits after the first. -/
theorem stale_logits_returned :
    (Runs.run (Served.step sampleConfig) Served.start staleCalls).returned = some [5, 6] ∧
      (Runs.run (Served.step sampleConfig) Served.start staleCalls).st.logits =
        .computed [⟨none, .held [], 0, [5]⟩, ⟨some 0, .held [], 0, [5]⟩] ∧
      ¬Runs.Always (Served.step sampleConfig) Kept Served.start staleCalls := by
  have hreturned : (Runs.run (Served.step sampleConfig) Served.start staleCalls).returned = some [5, 6] := by decide
  have hlogits : (Runs.run (Served.step sampleConfig) Served.start staleCalls).st.logits =
      .computed [⟨none, .held [], 0, [5]⟩, ⟨some 0, .held [], 0, [5]⟩] := by decide
  refine ⟨hreturned, hlogits, fun halways => ?_⟩
  have hafter := (halways.last [5, 6] hreturned).logits
  rw [hlogits] at hafter
  obtain ⟨before, span, route, hcat, htrace⟩ := hafter
  obtain ⟨-, hkv, -, hspan⟩ := Made.mk.inj (List.cons.inj htrace).1
  rw [← Kv.held.inj hkv, ← hspan] at hcat
  exact absurd hcat (by simp)

end Ds4.Dist
