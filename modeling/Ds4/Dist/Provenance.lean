import Ds4.Dist.Network

/- What travels through the system and what it was made from.

   PROVED here, for any property `W` that the workers keep: a frame in flight says
   what its submission said, and its hidden state, the results and the accepted
   results were made on every hop from exactly the tokens the submission stands on
   (`Inv`, kept by `submit_inv`, `deliver_inv` and `accept_inv`). -/
namespace Ds4.Dist

variable {H : Type} {cfg : Config H}

/-! ## What a submission's output is made from -/

/-- How `hop` makes its part of `sub`: from the KV of exactly the tokens before the span. -/
def Submission.made (sub : Submission H) (hop : Option Nat) : Made := ⟨hop, .held sub.before, sub.before.length, sub.span⟩

/-- The coordinator and the first `n` workers of the route. -/
def Submission.trace (sub : Submission H) (n : Nat) : List Made := (none :: (sub.route.take n).map some).map sub.made

/-- A frame in flight says what its submission said, and its hidden state was made as it should. -/
structure Carries (sub : Submission H) (cfg : Config H) (work : Work H) : Prop where
  request : work.requestId = sub.requestId
  prefixHash : work.prefixHash = cfg.hash.ofPrefix sub.before
  resultHash : work.resultHash = cfg.hash.updateSpan work.prefixHash work.tokens
  pos : work.pos0 = sub.before.length
  tokens : work.tokens = sub.span
  route : work.route = sub.route
  index : work.routeIndex < sub.route.length
  reset : work.resetSession = true → sub.before = []
  hidden : work.hidden = sub.trace work.routeIndex

/-- The invariant of the system. `W` is what every worker session satisfies; where `Z` is
    false, no span at position 0 goes out without a reset. -/
structure Inv (W : WorkerSession H → Prop) (Z : Prop) (cfg : Config H) (sys : System H) : Prop where
  coordinator : sys.coordinator.Sound
  workers : ∀ worker ws, sys.workers worker = some ws → W ws
  works : ∀ work ∈ sys.works, ∃ sub ∈ sys.submitted, Carries sub cfg work
  starts : ∀ work ∈ sys.works, work.resetSession = false → work.pos0 = 0 → Z
  results : ∀ result ∈ sys.results, ∃ sub ∈ sys.submitted,
    result.requestId = sub.requestId ∧ result.trace = sub.trace sub.route.length
  fresh : ∀ sub ∈ sys.submitted, sub.requestId < sys.nextRequest
  distinct : ∀ a ∈ sys.submitted, ∀ b ∈ sys.submitted, a.requestId = b.requestId → a = b
  accepted : ∀ sub result, (sub, result) ∈ sys.accepted → result.trace = sub.trace sub.route.length

theorem inv_start {W : WorkerSession H → Prop} {Z : Prop} : Inv W Z cfg System.start := by
  constructor <;> simp [System.start, SliceSession.sound_create]

/-! ## What one step changes -/

variable {W : WorkerSession H → Prop} {Z : Prop} {sys : System H} {work : Work H} {fate : Fate}
  {ws : Option (WorkerSession H)} {sub : Submission H} {session : SliceSession}

theorem Inv.setWorker (h : Inv W Z cfg sys) (worker : Nat) (hws : ∀ w, ws = some w → W w) :
    Inv W Z cfg { sys with workers := Function.update sys.workers worker ws } := by
  refine ⟨h.coordinator, fun other w hw => ?_, h.works, h.starts, h.results, h.fresh, h.distinct, h.accepted⟩
  by_cases heq : other = worker
  · rw [heq] at hw
    exact hws w (by simpa using hw)
  · exact h.workers other w (by simpa [Function.update_of_ne heq] using hw)

theorem Inv.eraseWork (h : Inv W Z cfg sys) (i : Nat) : Inv W Z cfg { sys with works := sys.works.eraseIdx i } :=
  ⟨h.coordinator, h.workers, fun work hw => h.works work (List.mem_of_mem_eraseIdx hw),
    fun work hw => h.starts work (List.mem_of_mem_eraseIdx hw), h.results, h.fresh, h.distinct,
    h.accepted⟩

theorem Inv.setCoordinator (h : Inv W Z cfg sys) {session : SliceSession} (hs : session.Sound) :
    Inv W Z cfg { sys with coordinator := session } :=
  ⟨hs, h.workers, h.works, h.starts, h.results, h.fresh, h.distinct, h.accepted⟩

theorem Inv.nextRequest (h : Inv W Z cfg sys) : Inv W Z cfg { sys with nextRequest := sys.nextRequest + 1 } :=
  ⟨h.coordinator, h.workers, h.works, h.starts, h.results, fun sub hsub => Nat.lt_succ_of_lt (h.fresh sub hsub), h.distinct,
    h.accepted⟩

/-- A submission under a number not used before. -/
theorem Inv.addSubmission (h : Inv W Z cfg sys) (hnew : ∀ other ∈ sys.submitted, other.requestId < sub.requestId)
    (hnum : sub.requestId < sys.nextRequest) : Inv W Z cfg { sys with submitted := sys.submitted ++ [sub] } := by
  refine ⟨h.coordinator, h.workers, fun work hw => ?_, h.starts, fun result hr => ?_, fun other ho => ?_,
    fun a ha b hb hab => ?_, h.accepted⟩
  · obtain ⟨other, ho, hc⟩ := h.works work hw
    exact ⟨other, List.mem_append_left _ ho, hc⟩
  · obtain ⟨other, ho, hc⟩ := h.results result hr
    exact ⟨other, List.mem_append_left _ ho, hc⟩
  · rcases List.mem_append.mp ho with ho | ho
    · exact h.fresh other ho
    · rw [List.mem_singleton.mp ho]
      exact hnum
  · rcases List.mem_append.mp ha with ha | ha <;> rcases List.mem_append.mp hb with hb | hb
    · exact h.distinct a ha b hb hab
    · rw [List.mem_singleton.mp hb] at hab
      exact absurd hab (Nat.ne_of_lt (hnew a ha))
    · rw [List.mem_singleton.mp ha] at hab
      exact absurd hab.symm (Nat.ne_of_lt (hnew b hb))
    · rw [List.mem_singleton.mp ha, List.mem_singleton.mp hb]

theorem Inv.addWork (h : Inv W Z cfg sys) (hsub : sub ∈ sys.submitted) (hc : Carries sub cfg work)
    (hz : work.resetSession = false → work.pos0 = 0 → Z) : Inv W Z cfg { sys with works := sys.works ++ [work] } := by
  refine ⟨h.coordinator, h.workers, fun other ho => ?_, fun other ho => ?_, h.results, h.fresh, h.distinct, h.accepted⟩
  all_goals rcases List.mem_append.mp ho with ho | ho
  · exact h.works other ho
  · rw [List.mem_singleton.mp ho]
    exact ⟨sub, hsub, hc⟩
  · exact h.starts other ho
  · rw [List.mem_singleton.mp ho]
    exact hz

theorem Inv.addResult (h : Inv W Z cfg sys) (hsub : sub ∈ sys.submitted) {result : Result H}
    (hid : result.requestId = sub.requestId) (htrace : result.trace = sub.trace sub.route.length) :
    Inv W Z cfg { sys with results := sys.results ++ [result] } := by
  refine ⟨h.coordinator, h.workers, h.works, h.starts, fun other ho => ?_, h.fresh, h.distinct, h.accepted⟩
  rcases List.mem_append.mp ho with ho | ho
  · exact h.results other ho
  · rw [List.mem_singleton.mp ho]
    exact ⟨sub, hsub, hid, htrace⟩

theorem Inv.addAccepted (h : Inv W Z cfg sys) {result : Result H} (htrace : result.trace = sub.trace sub.route.length) :
    Inv W Z cfg { sys with accepted := sys.accepted ++ [(sub, result)] } := by
  refine ⟨h.coordinator, h.workers, h.works, h.starts, h.results, h.fresh, h.distinct, fun other r hr => ?_⟩
  rcases List.mem_append.mp hr with hr | hr
  · exact h.accepted other r hr
  · obtain ⟨rfl, rfl⟩ := Prod.mk.inj (List.mem_singleton.mp hr)
    exact htrace

/-- The next hop of the route adds its own part to the trace. -/
theorem trace_succ {n : Nat} (h : n < sub.route.length) :
    sub.trace (n + 1) = sub.trace n ++ [sub.made (some (sub.route.getD n 0))] := by
  have htake : sub.route.take (n + 1) = sub.route.take n ++ [sub.route.getD n 0] := by
    rw [List.take_add_one, List.getD, List.getElem?_eq_getElem h]
    rfl
  rw [Submission.trace, htake, Submission.trace]
  simp only [List.map_append, List.map_cons, List.map_nil, List.cons_append]

/-! ## A span the coordinator sends -/

/-- A span evaluated in a session that holds exactly its own timeline. -/
theorem evalSpan_inv {numbered : System H} {requestId : Nat} (h : Inv W Z cfg numbered) (hsound : session.Sound)
    (hkv : session.kv = .held session.checkpoint) (reset : Bool) (hreset : reset = true → session.checkpoint = [])
    (hz : reset = false → session.checkpoint = [] → Z)
    (hnew : ∀ sub ∈ numbered.submitted, sub.requestId < requestId) (hnum : requestId < numbered.nextRequest)
    (span route : List Nat) (outcome : Outcome) :
    Inv W Z cfg (numbered.evalSpan cfg requestId session reset span route outcome) := by
  rw [System.evalSpan]
  rcases he : session.evalLayerSlice cfg.ctxSize span session.checkpoint.length outcome with ⟨after, ok⟩
  cases ok with
  | false => exact h.setCoordinator (hsound.eval_false he).1
  | true =>
    obtain ⟨-, -, hafter⟩ := SliceSession.evalLayerSlice_true he
    have hafterSound : after.Sound := hafter ▸ SliceSession.Sound.extend hkv rfl
    generalize hsub : (⟨requestId, session.checkpoint, span,
      cfg.hash.updateSpan (cfg.hash.ofPrefix session.checkpoint) span, route⟩ : Submission H) = sub
    have hid : sub.requestId = requestId := by rw [← hsub]
    have hsent : Inv W Z cfg { numbered with coordinator := after, submitted := numbered.submitted ++ [sub] } :=
      (h.setCoordinator hafterSound).addSubmission (hid ▸ hnew) (hid ▸ hnum)
    have hmade : [(⟨none, session.kv, session.checkpoint.length, span⟩ : Made)] = sub.trace 0 := by
      rw [← hsub, hkv]
      rfl
    simp only
    split_ifs with hroute
    · refine hsent.addAccepted ?_
      rw [hmade, ← hsub, hroute]
      rfl
    · refine hsent.addWork (show sub ∈ numbered.submitted ++ [sub] from List.mem_append_right _ (List.mem_singleton_self _)) ?_ ?_
      all_goals subst hsub
      · exact ⟨rfl, rfl, rfl, rfl, rfl, rfl, List.length_pos_iff.mpr hroute, hreset, hmade⟩
      · exact fun hr hpos => hz hr (List.eq_nil_of_length_eq_zero hpos)

theorem submit_inv (h : Inv W Z cfg sys) (reset : Bool) (span route : List Nat) (resetOk : Bool) (outcome : Outcome)
    (hz : reset = false → sys.coordinator.checkpoint = [] → Z) :
    Inv W Z cfg (sys.submit cfg reset span route resetOk outcome) := by
  simp only [System.submit]
  split_ifs with hreset hok hvalid
  · exact evalSpan_inv h.nextRequest (SliceSession.sound_reset sys.coordinator resetOk) (by rw [hok]; rfl) true
      (fun _ => rfl) (fun hr => Bool.noConfusion hr) h.fresh (Nat.lt_succ_self _) span route outcome
  · exact h.nextRequest.setCoordinator (SliceSession.sound_reset sys.coordinator resetOk)
  · exact evalSpan_inv h.nextRequest h.coordinator (h.coordinator.valid hvalid) false (fun hr => Bool.noConfusion hr)
      (fun _ => hz (by simpa using hreset)) h.fresh (Nat.lt_succ_self _) span route outcome
  · exact h.nextRequest

/-! ## One step of the system -/

/-- A delivery, for a frame whose worker keeps `W` and makes its part as it should. -/
theorem deliver_inv [DecidableEq H] (h : Inv W Z cfg sys) (i : Nat) (fate : Fate)
    (hstep : ∀ work sub, sys.works[i]? = some work → Carries sub cfg work →
      (work.resetSession = false → work.pos0 = 0 → Z) →
      (∀ w, (processWork cfg (System.target work) (sys.workers (System.target work)) work fate).1 = some w → W w) ∧
        ∀ made, (processWork cfg (System.target work) (sys.workers (System.target work)) work fate).2 = some made →
          made = sub.made (some (System.target work))) :
    Inv W Z cfg (sys.deliver cfg i fate) := by
  rw [System.deliver]
  cases hwork : sys.works[i]? with
  | none => exact h
  | some work =>
    obtain ⟨sub, hsub, hc⟩ := h.works work (List.mem_of_getElem? hwork)
    have hz := h.starts work (List.mem_of_getElem? hwork)
    obtain ⟨hnext, hmade⟩ := hstep work sub hwork hc hz
    simp only
    generalize processWork cfg (System.target work) (sys.workers (System.target work)) work fate = out at hnext hmade ⊢
    have hset := (h.eraseWork i).setWorker (System.target work) hnext
    cases hout : out.2 with
    | none => exact hset
    | some made =>
      have htrace : work.hidden ++ [made] = sub.trace (work.routeIndex + 1) := by
        rw [trace_succ hc.index, hc.hidden, hmade made hout, System.target, hc.route]
      simp only [System.handOn]
      split_ifs with hmore
      · refine hset.addWork hsub ?_ hz
        exact ⟨hc.request, hc.prefixHash, hc.resultHash, hc.pos, hc.tokens, hc.route, hc.route ▸ hmore, hc.reset, htrace⟩
      · refine hset.addResult hsub hc.request ?_
        have hlast : work.routeIndex + 1 = sub.route.length := by
          have := hc.index
          rw [hc.route] at hmore
          omega
        exact hlast ▸ htrace

/-- One number, one submission: a result under its number was made for it. -/
theorem Inv.result_trace (h : Inv W Z cfg sys) {result : Result H} (hr : result ∈ sys.results)
    (hsub : sub ∈ sys.submitted) (hid : result.requestId = sub.requestId) : result.trace = sub.trace sub.route.length := by
  obtain ⟨other, ho, hother, htrace⟩ := h.results result hr
  rwa [h.distinct other ho sub hsub (hother.symm.trans hid)] at htrace

theorem accept_inv [DecidableEq H] (h : Inv W Z cfg sys) (i j : Nat) : Inv W Z cfg (sys.accept i j) := by
  rw [System.accept]
  split
  · next result sub hr hs =>
    split_ifs with hmatch
    · exact h.addAccepted (h.result_trace (List.mem_of_getElem? hr) (List.mem_of_getElem? hs) hmatch.1)
    · exact h
  · exact h

end Ds4.Dist
