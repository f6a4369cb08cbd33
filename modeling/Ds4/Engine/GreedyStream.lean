import Ds4.Engine.SpeculativeGreedy

/- The stream of speculative greedy decoding is one the main model computed.

   PROVED:
   1. `verifySuffix_wp`, `agreeing_wp`, ... — what each call of the device leaves.
   2. `combined_wp`, `seq_wp`, `canonical_wp` — every kind of step, from a session that
      stands behind a history, accepts tokens that follow it (`Stepped`).
   3. `generate_exact` — over a run of the greedy loop, whatever is drafted and whichever
      device calls fail: each printed token is the arg max of logits computed over the
      tokens in front of it, and none is left out, unless the code has passed over a
      failed call. -/
namespace Ds4.Engine.Greedy
open Drafter (Config)

variable (top : Logits → Int)

/-! ## The stream of a model -/

/-- Behind a history come tokens each of which is the arg max of logits computed over
    exactly the tokens in front of it. -/
inductive Follows : List Int → List Int → Prop
  | nil {h : List Int} : Follows h []
  | cons {h tokens : List Int} {l : Logits} : l.history = h → Follows (h ++ [top l]) tokens → Follows h (top l :: tokens)

/-- The session has read exactly these tokens: its caches and its logits are theirs. -/
structure Stands (s : Session) (h : List Int) : Prop where
  checkpoint : s.checkpoint = h
  frontier : s.frontier = some h
  logits : ∃ l, s.logits = some l ∧ l.history = h

variable {top}

theorem Follows.append {h a b : List Int} (ha : Follows top h a) (hb : Follows top (h ++ a) b) : Follows top h (a ++ b) := by
  induction ha with
  | nil => rwa [List.append_nil] at hb
  | @cons h tokens l hl _ ih =>
    refine .cons hl (ih ?_)
    rwa [List.append_assoc, List.singleton_append]

theorem Follows.snoc {h a : List Int} {l : Logits} (ha : Follows top h a) (hl : l.history = h ++ a) :
    Follows top h (a ++ [top l]) := ha.append (.cons hl .nil)

theorem Follows.front {h a b : List Int} (hab : Follows top h (a ++ b)) : Follows top h a := by
  induction a generalizing h with
  | nil => exact .nil
  | cons t a ih =>
    cases hab with
    | cons hl hrest => exact .cons hl (ih hrest)

theorem Follows.take {h a : List Int} (ha : Follows top h a) (n : Nat) : Follows top h (a.take n) :=
  Follows.front (b := a.drop n) (by rwa [List.take_append_drop])

/-- Drafts that the rows of a batch agree with follow. -/
theorem follows_rows {h base window drafts : List Int} {k : Nat}
    (hstart : ∀ j, base ++ window.take (j + k + 1) = h ++ drafts.take j) : ∀ n, n ≤ drafts.length →
    (∀ j < n, drafts[j]? = some (top (.row base window (j + k)))) → Follows top h (drafts.take n) := by
  intro n
  induction n with
  | zero => exact fun _ _ => .nil
  | succ n ih =>
    intro hn hrows
    have hlast := hrows n (Nat.lt_succ_self n)
    obtain ⟨hlt, hget⟩ := List.getElem?_eq_some_iff.mp hlast
    rw [List.take_succ_eq_append_getElem hlt, hget]
    exact (ih (by omega) fun j hj => hrows j (by omega)).snoc (hstart n)

theorem takeAccepted_front (eosToken : Int) : ∀ (n : Nat) (drafts : List Int), drafts.length ≤ n →
    ∃ rest, drafts = takeAccepted eosToken n drafts ++ rest ∧ (rest ≠ [] → eosToken ∈ takeAccepted eosToken n drafts)
  | n, [], _ => ⟨[], by cases n <;> rfl, fun h => absurd rfl h⟩
  | 0, draft :: drafts, h => absurd h (by simp)
  | n + 1, draft :: drafts, h => by
    rw [takeAccepted]
    split
    · next heos =>
      exact ⟨drafts, rfl, fun _ => by simp [heos]⟩
    · obtain ⟨rest, hrest, heos⟩ := takeAccepted_front eosToken n drafts (by simpa using h)
      exact ⟨rest, by rw [List.cons_append, ← hrest], fun hne => List.mem_cons_of_mem _ (heos hne)⟩

/-! ## Calls of the device -/

open Program (wp wp_pure wp_bind wp_ite wp_mono wp_keeps wp_always wp_and)

variable {α : Type} {w : World}

@[simp] theorem session_wp (Q : Session → World → Prop) : wp apply session Q w = Q w.session w := rfl

@[simp] theorem set_wp (f : Session → Session) (Q : Unit → World → Prop) :
    wp apply (set f) Q w = Q () { w with session := f w.session } := rfl

@[simp] theorem miss_wp (Q : Unit → World → Prop) : wp apply miss Q w = Q () { w with missed := true } := rfl

@[simp] theorem askInt_wp (Q : Int → World → Prop) : wp apply askInt Q w = ∀ n, Q n w := rfl

@[simp] theorem askBool_wp (Q : Bool → World → Prop) : wp apply askBool Q w ↔ ∀ b, Q b w := by
  constructor
  · intro h b
    cases b with
    | false => exact h 0
    | true => exact h 1
  · exact fun h n => h _

theorem askCount_wp {low high : Nat} {Q : Nat → World → Prop} (h : ∀ n, low ≤ n → n ≤ max low high → Q n w) :
    wp apply (askCount low high) Q w := fun n => h _ (by omega) (by omega)

theorem askTokens_wp : ∀ {n : Nat} {Q : List Int → World → Prop}, (∀ tokens, tokens.length = n → Q tokens w) →
    wp apply (askTokens n) Q w
  | 0, _, h => h [] rfl
  | n + 1, Q, h => by
    rw [askTokens, wp_bind, askInt_wp]
    intro token
    rw [wp_bind]
    exact askTokens_wp fun tokens htokens => h _ (by rw [List.length_cons, htokens])

/-- What has gone wrong unseen stays so. -/
theorem wp_missed {p : Op α} {Q : α → World → Prop} (h : w.missed = true) (hQ : ∀ a w, w.missed = true → Q a w) :
    wp apply p Q w := by
  refine wp_mono hQ (wp_keeps ?_ p h)
  intro a w h
  cases a with
  | set f => exact h
  | miss => rfl

theorem topOf_wp (l : Logits) (Q : Int → World → Prop) : wp apply (topOf top (some l)) Q w = Q (top l) w := rfl

theorem evalToken_wp {h : List Int} {token : Int} {Q : Bool × Option Logits → World → Prop}
    (hf : w.session.frontier = some h)
    (hok : Q (true, some (.step (h ++ [token]))) ⟨{ w.session with frontier := some (h ++ [token]) }, w.missed⟩)
    (hfail : Q (false, none) ⟨{ w.session with frontier := none }, w.missed⟩) :
    wp apply (evalToken token h.length) Q w := by
  have hcache : w.session.cacheAt h.length = some h := by
    rw [Session.cacheAt, hf]
    simp
  rw [evalToken]
  simp only [wp_bind, session_wp, askBool_wp, set_wp, wp_pure]
  intro ok
  cases ok with
  | false => exact hfail
  | true =>
    rw [if_pos rfl, hcache]
    exact hok

/-- A batched forward over `window` behind `base`. -/
structure Batch (s : Session) (base window : List Int) (captured : Bool) : Prop where
  frontier : s.frontier = some (base ++ window)
  prefix1 : captured = true → 2 ≤ window.length → s.prefix1 = some (base ++ window.take 1)
  prefix2 : captured = true → 3 ≤ window.length → s.prefix2 = some (base ++ window.take 2)
  rows : s.specLogits = (List.range window.length).map fun i => some (.row base window i)

theorem verifySuffix_wp {base : List Int} (window : List Int) {captured : Bool} {Q : Bool → World → Prop}
    (hf : w.session.frontier = some base) (hc : w.session.checkpoint = base ++ window)
    (hok : ∀ s, Batch s base window captured → s.checkpoint = base ++ window → s.snapshot = w.session.snapshot →
      s.logits = w.session.logits → Q true ⟨s, w.missed⟩)
    (hfail : ∀ s, s.snapshot = w.session.snapshot → s.logits = w.session.logits → Q false ⟨s, w.missed⟩) :
    wp apply (verifySuffix base.length captured) Q w := by
  have hcache : w.session.cacheAt base.length = some base := by
    rw [Session.cacheAt, hf]
    simp
  rw [verifySuffix]
  simp only [wp_bind, session_wp, askBool_wp, set_wp, wp_pure]
  intro ok
  cases ok with
  | false => exact hfail _ rfl rfl
  | true =>
    rw [if_pos rfl, hcache, hc, List.drop_left]
    refine hok _ ⟨rfl, fun hcap hlen => ?_, fun hcap hlen => ?_, rfl⟩ rfl rfl rfl
    · simp [hcap, hlen]
    · simp [hcap, hlen]

/-- The loop over the row tops counts drafts that are row tops. -/
theorem agreeing_wp (base window : List Int) : ∀ (drafts : List Int) (i n : Nat) {Q : Nat → World → Prop},
    (∀ c ≤ drafts.length, (∀ j < c, drafts[j]? = some (top (.row base window (j + i)))) → Q c w) →
    wp apply (agreeing top ((List.range' i n).map fun i => some (.row base window i)) drafts) Q w
  | [], i, n, Q, h => by
    have hnil : ∀ rows, agreeing top rows [] = pure 0 := fun rows => by cases rows <;> rfl
    rw [hnil]
    exact h 0 (Nat.zero_le _) fun j hj => absurd hj (Nat.not_lt_zero j)
  | draft :: drafts, i, 0, Q, h => h 0 (Nat.zero_le _) fun j hj => absurd hj (Nat.not_lt_zero j)
  | draft :: drafts, i, n + 1, Q, h => by
    rw [List.range'_succ, List.map_cons, agreeing, wp_bind, topOf_wp]
    refine wp_ite (fun hrow => ?_) fun _ => h 0 (Nat.zero_le _) fun j hj => absurd hj (Nat.not_lt_zero j)
    rw [wp_bind]
    refine agreeing_wp base window drafts (i + 1) n fun c hc hrows => h (c + 1) (by simpa using hc) fun j hj => ?_
    cases j with
    | zero => simp [hrow]
    | succ j =>
      have := hrows j (by omega)
      rw [List.getElem?_cons_succ, this]
      congr 3
      omega

/-! ## Steps -/

/-- What a step from `h` with `firstToken` leaves: of a step that accepts, the tokens
    follow, and the session stands behind them; only behind the end of the text may it
    stand further on. -/
def Stepped (top : Logits → Int) (eosToken : Int) (h : List Int) (firstToken : Int) : Rc → World → Prop
  | .accepted tokens, w => w.missed = true ∨ ∃ rest extra, tokens = firstToken :: rest ∧
      Follows top (h ++ [firstToken]) (rest ++ extra) ∧ Stands w.session (h ++ tokens ++ extra) ∧
      (extra ≠ [] → eosToken ∈ tokens)
  | .error, _ => True
  | .gap, w => w.missed = true ∨ Stands w.session h

theorem Stepped.missed {eosToken firstToken : Int} {h : List Int} {rc : Rc} (hw : w.missed = true) :
    Stepped top eosToken h firstToken rc w := by
  cases rc with
  | accepted tokens => exact .inl hw
  | error => trivial
  | gap => exact .inl hw

/-- Drafts that hold are accepted. -/
theorem stepped_drafts {eosToken firstToken : Int} {h drafts : List Int} {n : Nat} (hn : drafts.length ≤ n)
    (hfollow : Follows top (h ++ [firstToken]) drafts) (hstands : Stands w.session (h ++ firstToken :: drafts)) :
    Stepped top eosToken h firstToken (.accepted (firstToken :: takeAccepted eosToken n drafts)) w := by
  obtain ⟨rest, hrest, heos⟩ := takeAccepted_front eosToken n drafts hn
  refine .inr ⟨_, rest, rfl, hrest ▸ hfollow, ?_, fun hne => List.mem_cons_of_mem _ (heos hne)⟩
  rw [List.append_assoc, List.cons_append, ← hrest]
  exact hstands

theorem stepped_first {eosToken firstToken : Int} {h : List Int} (hstands : Stands w.session (h ++ [firstToken])) :
    Stepped top eosToken h firstToken (.accepted [firstToken]) w :=
  .inr ⟨[], [], rfl, .nil, by rwa [List.append_nil], fun hne => absurd rfl hne⟩

@[simp] theorem fail_wp (Q : Rc → World → Prop) :
    wp apply fail Q w = Q .error { w with session := { w.session with checkpointValid := false } } := rfl

theorem readRow_wp {base window : List Int} {row : Nat} {Q : Bool × Option Logits → World → Prop}
    (hrows : w.session.specLogits = (List.range window.length).map fun i => some (.row base window i))
    (hrow : row < window.length) (hok : Q (true, some (.row base window row)) w) (hfail : Q (false, none) w) :
    wp apply (readSpecLogitsRow row) Q w := by
  rw [readSpecLogitsRow]
  simp only [wp_bind, session_wp, askBool_wp, wp_pure]
  intro ok
  cases ok with
  | false => exact hfail
  | true =>
    rw [if_pos rfl, hrows, List.getD_eq_getElem?_getD, List.getElem?_map, List.getElem?_range hrow]
    exact hok

theorem commitBatch_wp {base drafts base' window : List Int} {commit row : Nat} {Q : Bool → World → Prop}
    (hbatch : Batch w.session base' window true) (hlast : base ++ drafts.take commit = base' ++ window.take (row + 1))
    (hrow : row < window.length) (hall : drafts.length ≤ commit ↔ window.length ≤ row + 1)
    (hok : ∀ s, Stands s (base ++ drafts.take commit) → Q true ⟨s, w.missed⟩) (hfail : ∀ s, Q false ⟨s, w.missed⟩) :
    wp apply (commitBatch base drafts commit row) Q w := by
  -- the frontier behind the row, and the logits of it
  have hback : ∀ {Q : Bool → World → Prop}, (∀ s, s.checkpoint = base ++ drafts.take commit →
      s.frontier = some (base ++ drafts.take commit) → s.specLogits = w.session.specLogits → Q true ⟨s, w.missed⟩) →
      (∀ s, Q false ⟨s, w.missed⟩) → wp apply (rollBack row (decide (drafts.length ≤ commit))) Q
        ⟨{ w.session with checkpoint := base ++ drafts.take commit }, w.missed⟩ := by
    intro Q hq hq'
    rw [rollBack]
    by_cases hle : drafts.length ≤ commit
    · rw [if_pos (decide_eq_true hle)]
      refine hq _ rfl ?_ rfl
      rw [hlast, List.take_of_length_le (hall.mp hle)]
      exact hbatch.frontier
    · rw [if_neg (by simpa using hle)]
      have hmore : row + 1 < window.length := Nat.lt_of_not_le fun h => hle (hall.mpr h)
      refine wp_ite (fun hzero => ?_) fun hne => wp_ite (fun hone => ?_) fun _ => hq' _
      · simp only [frontierCommitPrefix1, wp_bind, askBool_wp, set_wp, wp_pure]
        intro ok
        cases ok with
        | false => exact hq' _
        | true =>
          refine hq _ rfl ?_ rfl
          rw [hlast, hzero]
          exact hbatch.prefix1 rfl (by omega)
      · simp only [frontierCommitPrefix2, wp_bind, askBool_wp, set_wp, wp_pure]
        intro ok
        cases ok with
        | false => exact hq' _
        | true =>
          refine hq _ rfl ?_ rfl
          rw [hlast, hone]
          exact hbatch.prefix2 rfl (by omega)
  rw [commitBatch]
  simp only [wp_bind, set_wp]
  refine hback (fun s hcheck hfront hrows => ?_) fun s => hfail s
  rw [if_pos rfl, wp_bind]
  refine @readRow_wp _ base' window row _ (hrows.trans hbatch.rows) hrow ?_ ?_
  · rw [wp_bind, askBool_wp]
    intro hcValid
    exact hok _ ⟨hcheck, hfront, _, rfl, by rw [hlast]; rfl⟩
  · rw [wp_bind, askBool_wp]
    exact fun _ => hfail _

/-- A combined step. -/
theorem combined_wp {cfg : Config} {firstToken maxTokens eosToken acceptedCap : Int} {h : List Int} (hs : Stands w.session h) :
    wp apply (speculativeArgmaxCombined top cfg firstToken maxTokens eosToken acceptedCap)
      (Stepped top eosToken h firstToken) w := by
  rw [speculativeArgmaxCombined]
  simp only [wp_bind, session_wp, askBool_wp]
  intro cascade drafted
  refine wp_ite (fun _ => .inr hs) fun hgo => ?_
  simp only [Bool.or_eq_true, not_or, decide_eq_true_iff, Int.not_lt] at hgo
  obtain ⟨⟨-, hcap⟩, -⟩ := hgo
  generalize hdraftCap : min (min (min (if cascade = true then (2 : Int) else 1) (maxTokens - 1)) (acceptedCap - 1))
    (cfg.ctxSize - w.session.checkpoint.length - 1) = draftCap at hcap ⊢
  have hroom : draftCap ≤ acceptedCap - 1 := by omega
  rw [wp_bind]
  refine askCount_wp fun draftN hlow hhigh => ?_
  rw [wp_bind]
  refine askTokens_wp fun drafts hdrafts => ?_
  simp only [wp_bind, set_wp]
  rw [hs.checkpoint]
  refine verifySuffix_wp (firstToken :: drafts) hs.frontier rfl (fun s hbatch hcheck _ _ => ?_) fun _ _ _ => trivial
  rw [if_pos rfl]
  simp only [wp_bind, session_wp]
  rw [hbatch.rows, List.range_eq_range']
  refine agreeing_wp h (firstToken :: drafts) drafts 0 _ fun commit hcommit hrows => ?_
  rw [wp_bind]
  refine @commitBatch_wp ⟨s, w.missed⟩ (h ++ [firstToken]) drafts h (firstToken :: drafts) commit commit _ hbatch (by simp)
    (by rw [List.length_cons]; omega) (by simp) (fun s' hs' => ?_) fun _ => trivial
  rw [if_pos rfl]
  refine stepped_drafts (by rw [List.length_take]; omega) ?_ (by simpa using hs')
  exact follows_rows (k := 0) (fun j => by simp) commit hcommit hrows

theorem readAny_wp {row : Nat} {Q : Bool × Option Logits → World → Prop} (h : ∀ r, Q r w) :
    wp apply (readSpecLogitsRow row) Q w := by
  rw [readSpecLogitsRow]
  simp only [wp_bind, session_wp, askBool_wp, wp_pure]
  exact fun ok => h _

theorem probeDraft_wp {cfg : Config} {probeMtp : Bool} {h : List Int} {Q : Unit → World → Prop} (hs : Stands w.session h)
    (hQ : ∀ s, Stands s h → Q () ⟨s, w.missed⟩) : wp apply (probeDraft cfg probeMtp) Q w := by
  rw [probeDraft]
  simp only [wp_bind, askBool_wp, askInt_wp, set_wp]
  exact fun drafted draft => hQ _ ⟨hs.checkpoint, hs.frontier, hs.logits⟩

theorem evalInternal_wp {cfg : Config} {token : Int} {probeMtp : Bool} {h : List Int} {Q : Bool → World → Prop}
    (hs : Stands w.session h) (hok : ∀ s, Stands s (h ++ [token]) → Q true ⟨s, w.missed⟩)
    (hfail : ∀ s, Q false ⟨s, w.missed⟩) :
    wp apply (evalInternal cfg token probeMtp) Q w := by
  rw [evalInternal]
  simp only [wp_bind, set_wp, session_wp, askBool_wp]
  intro batchDecode
  rw [hs.checkpoint]
  refine wp_ite (fun _ => ?_) fun _ => ?_
  · -- a batch of one
    simp only [wp_bind, set_wp]
    refine verifySuffix_wp [token] hs.frontier rfl (fun s hbatch hcheck _ _ => ?_) fun s _ _ => ?_
    · simp only [wp_bind, askBool_wp]
      intro copied
      refine readRow_wp hbatch.rows (Nat.zero_lt_one) ?_ ?_
      · refine wp_ite (fun _ => ?_) fun _ => hfail _
        simp only [wp_bind, set_wp]
        exact probeDraft_wp (h := h ++ [token]) ⟨hcheck, hbatch.frontier, _, rfl, rfl⟩ hok
      · refine wp_ite (fun hread => ?_) fun _ => hfail _
        simp at hread
    · simp only [wp_bind, askBool_wp]
      intro copied
      refine readAny_wp fun r => ?_
      refine wp_ite (fun hverified => ?_) fun _ => hfail _
      simp at hverified
  · rw [wp_bind]
    refine evalToken_wp hs.frontier ?_ (hfail _)
    rw [if_pos rfl]
    simp only [wp_bind, set_wp]
    exact probeDraft_wp (h := h ++ [token]) ⟨rfl, rfl, _, rfl, rfl⟩ hok

/-- Drafts the first of which the logits in front of the batch have confirmed. -/
theorem commitDrafts_wp {start rest : List Int} {draft : Int} {Q : Nat → World → Prop} (hfirst : Follows top start [draft])
    (hQ : ∀ c, 1 ≤ c → c ≤ (draft :: rest).length → Follows top start ((draft :: rest).take c) → Q c w) :
    wp apply (commitDrafts top ((List.range (draft :: rest).length).map fun i => some (.row start (draft :: rest) i))
      (draft :: rest)) Q w := by
  rw [commitDrafts, wp_bind, List.range_eq_range', List.tail_cons]
  refine agreeing_wp start (draft :: rest) rest 0 _ fun c hc hrows => ?_
  rw [wp_pure]
  refine hQ (c + 1) (by omega) (by simpa using hc) ?_
  rw [List.take_succ_cons]
  exact hfirst.append (follows_rows (k := 0) (fun j => by simp) c hc hrows)

theorem dspark_wp {cfg : Config} {firstToken maxTokens eosToken acceptedCap : Int} {h : List Int} (hs : Stands w.session h) :
    wp apply (speculativeArgmaxDspark top cfg firstToken maxTokens eosToken acceptedCap)
      (Stepped top eosToken h firstToken) w := by
  rw [speculativeArgmaxDspark]
  simp only [wp_bind, session_wp, askInt_wp]
  intro depth
  generalize hdraftCap : min (min (min depth (maxTokens - 1)) (acceptedCap - 1))
    (cfg.ctxSize - w.session.checkpoint.length - 1) = draftCap
  have hroom : draftCap ≤ acceptedCap - 1 := by omega
  refine wp_ite (fun _ => .inr hs) fun hcap => ?_
  rw [wp_bind]
  refine evalInternal_wp hs (fun s hs => ?_) fun s => ?_
  · refine wp_ite (fun hcontra => absurd hcontra (by decide)) fun _ => wp_ite (fun _ => stepped_first hs) fun _ => ?_
    obtain ⟨l, hl, hhist⟩ := hs.logits
    simp only [wp_bind, session_wp]
    refine askCount_wp fun scheduled _ hscheduled => ?_
    rw [wp_bind]
    refine askTokens_wp fun drafts hdrafts => ?_
    rw [wp_bind, hl, topOf_wp]
    refine wp_ite (fun _ => stepped_first hs) fun hne => wp_ite (fun _ => ?_) fun htarget => ?_
    · exact stepped_first ⟨hs.checkpoint, hs.frontier, hs.logits⟩
    obtain ⟨draft, rest, rfl⟩ := List.exists_cons_of_ne_nil hne
    have hdraft : draft = top l := by simpa using htarget
    simp only [wp_bind, set_wp]
    rw [hs.checkpoint]
    refine verifySuffix_wp (draft :: rest) hs.frontier rfl (fun t hbatch hcheck _ _ => ?_) fun _ _ _ => trivial
    rw [if_pos rfl]
    simp only [wp_bind, session_wp]
    rw [hbatch.rows]
    refine commitDrafts_wp (hdraft ▸ .cons hhist .nil) fun agreed hlow hhigh hfollow => ?_
    generalize hcommit : (if agreed < scheduled ∧ 2 < agreed then 2 else agreed) = commit
    have hle : 1 ≤ commit ∧ commit ≤ agreed := by
      split at hcommit <;> omega
    rw [wp_bind]
    refine @commitBatch_wp ⟨t, w.missed⟩ (h ++ [firstToken]) (draft :: rest) (h ++ [firstToken]) (draft :: rest) commit
      (commit - 1) _ hbatch ?_ (by omega) (by omega) (fun s' hs' => ?_) fun _ => trivial
    · rw [Nat.sub_add_cancel hle.1]
    rw [if_pos rfl]
    refine stepped_drafts (by rw [List.length_take]; omega) ?_ (by simpa using hs')
    have htake := hfollow.take commit
    rwa [List.take_take, Nat.min_eq_left hle.2] at htake
  · exact wp_ite (fun _ => trivial) fun hcontra => absurd rfl hcontra

theorem chain_wp {cfg : Config} {firstToken maxTokens eosToken acceptedCap : Int} {h : List Int} (hs : Stands w.session h) :
    wp apply (speculativeArgmaxChain cfg firstToken maxTokens eosToken acceptedCap) (Stepped top eosToken h firstToken) w := by
  rw [speculativeArgmaxChain]
  simp only [wp_bind, session_wp, askInt_wp]
  intro depth
  refine wp_ite (fun _ => .inr hs) fun hcap => ?_
  rw [wp_bind]
  refine evalInternal_wp hs (fun s hs => ?_) fun s => ?_
  · refine wp_ite (fun hcontra => absurd hcontra (by decide)) fun _ => ?_
    simp only [wp_bind, askBool_wp, set_wp]
    intro hcValid
    refine wp_ite (fun _ => stepped_first ⟨hs.checkpoint, hs.frontier, hs.logits⟩) fun _ => ?_
    obtain ⟨n, hn⟩ : ∃ n, (min (min (min depth (maxTokens - 1)) (acceptedCap - 1))
      (cfg.ctxSize - w.session.checkpoint.length - 1)).toNat = n + 1 := ⟨_, (Nat.succ_pred (by omega)).symm⟩
    rw [hn, chainDrafts]
    simp only [wp_bind, askBool_wp, askInt_wp]
    intro drafted draft
    refine wp_ite (fun _ => .inl rfl) fun _ => ?_
    simp only [wp_bind, session_wp]
    rw [hs.checkpoint]
    refine evalToken_wp hs.frontier ?_ ?_
    · trivial
    · rw [if_neg Bool.false_ne_true, wp_bind, miss_wp]
      exact wp_missed rfl fun rc t ht => Stepped.missed ht
  · exact wp_ite (fun _ => trivial) fun hcontra => absurd rfl hcontra

theorem seq_wp {cfg : Config} {firstToken maxTokens eosToken acceptedCap : Int} {h : List Int} (hs : Stands w.session h) :
    wp apply (speculativeArgmaxSeq top cfg firstToken maxTokens eosToken acceptedCap) (Stepped top eosToken h firstToken) w :=
  wp_ite (fun _ => dspark_wp hs) fun _ => chain_wp hs

/-! ## The canonical step -/

theorem keep_wp (logits : Option Logits) (hcValid : Option Bool) (Q : Unit → World → Prop) :
    wp apply (keep logits hcValid) Q w = Q () ⟨{ w.session with
      logits := logits
      checkpointValid := true
      mtpDraft := none
      combinedPrevHcValid := hcValid.getD w.session.combinedPrevHcValid }, w.missed⟩ := rfl

theorem replayDrafts_wp : ∀ {drafts h : List Int} {logits : Option Logits} {w : World}
    {Q : Bool × Option Logits → World → Prop}, w.session.checkpoint = h → w.session.frontier = some h →
    (drafts = [] → ∃ l, logits = some l ∧ l.history = h) →
    (∀ s l, s.checkpoint = h ++ drafts → s.frontier = some (h ++ drafts) → l.history = h ++ drafts →
      Q (true, some l) ⟨s, w.missed⟩) →
    (∀ s, Q (false, none) ⟨s, w.missed⟩) → wp apply (replayDrafts drafts logits) Q w
  | [], h, logits, w, Q, hcheck, hfront, hlogits, hok, _ => by
    obtain ⟨l, rfl, hl⟩ := hlogits rfl
    refine hok w.session l ?_ ?_ ?_
    · rw [List.append_nil, hcheck]
    · rw [List.append_nil, hfront]
    · rw [List.append_nil, hl]
  | draft :: drafts, h, logits, w, Q, hcheck, hfront, _, hok, hfail => by
    rw [replayDrafts]
    simp only [wp_bind, session_wp]
    rw [hcheck]
    refine evalToken_wp hfront ?_ (hfail _)
    rw [if_pos rfl]
    simp only [wp_bind, set_wp]
    refine replayDrafts_wp (h := h ++ [draft]) (by rw [hcheck]) rfl (fun _ => ⟨_, rfl, rfl⟩) (fun s l hc hf hl => ?_) hfail
    rw [List.append_assoc, List.singleton_append] at hc hf hl
    exact hok s l hc hf hl

theorem frontierRestore_wp {h : List Int} {Q : Bool → World → Prop} (hsnap : w.session.snapshot = some h)
    (hok : Q true ⟨{ w.session with frontier := some h }, w.missed⟩)
    (hfail : Q false ⟨{ w.session with frontier := none }, w.missed⟩) :
    wp apply frontierRestore Q w := by
  rw [frontierRestore]
  simp only [wp_bind, askBool_wp, set_wp, wp_pure]
  intro ok
  cases ok with
  | false => exact hfail
  | true =>
    rw [← hsnap] at hok
    exact hok

theorem exactReplay_wp {start drafts : List Int} {Q : Bool → World → Prop} (hsnap : w.session.snapshot = some start)
    (hne : drafts ≠ []) (hok : ∀ s, Stands s (start ++ drafts) → Q true ⟨s, w.missed⟩)
    (hmiss : ∀ s, Q false ⟨s, true⟩) :
    wp apply (exactReplay start drafts) Q w := by
  rw [exactReplay]
  simp only [wp_bind, set_wp]
  refine frontierRestore_wp hsnap ?_ (hmiss _)
  rw [if_pos rfl, wp_bind]
  refine replayDrafts_wp (h := start) rfl rfl (fun h => absurd h hne) (fun s l hc hf hl => ?_) fun s => hmiss _
  rw [if_pos rfl, wp_bind, keep_wp]
  exact hok _ ⟨hc, hf, l, rfl, hl⟩

theorem commitAll_wp {start drafts : List Int} {captured : Bool} {Q : Bool → World → Prop}
    (hbatch : Batch w.session start drafts captured) (hcheck : w.session.checkpoint = start ++ drafts) (hne : drafts ≠ [])
    (hok : ∀ s, Stands s (start ++ drafts) → Q true ⟨s, w.missed⟩) (hfail : Q false w) :
    wp apply (commitAll drafts.length) Q w := by
  have hlen := List.length_pos_of_ne_nil hne
  rw [commitAll, wp_bind]
  refine readRow_wp hbatch.rows (Nat.sub_lt hlen Nat.one_pos) ?_ ?_
  · simp only [wp_bind, askBool_wp]
    intro hcValid
    rw [if_pos trivial, wp_bind, keep_wp]
    refine hok _ ⟨hcheck, hbatch.frontier, _, rfl, ?_⟩
    rw [Logits.history, Nat.sub_add_cancel hlen, List.take_length]
  · simp only [wp_bind, askBool_wp]
    exact fun _ => hfail

theorem commitPrefix_wp {start drafts : List Int} {Q : Bool → World → Prop} (hbatch : Batch w.session start drafts true)
    (hlen : 2 ≤ drafts.length) (hok : ∀ s, Stands s (start ++ drafts.take 1) → Q true ⟨s, w.missed⟩)
    (hfail : ∀ s, s.snapshot = w.session.snapshot → s.logits = w.session.logits → Q false ⟨s, w.missed⟩) :
    wp apply (commitPrefix start drafts) Q w := by
  rw [commitPrefix]
  simp only [frontierCommitPrefix1, wp_bind, set_wp, askBool_wp, wp_pure]
  intro ok
  refine wp_ite (fun hcommit => ?_) fun _ => hfail _ rfl rfl
  subst hcommit
  rw [wp_bind]
  refine readRow_wp hbatch.rows (by omega) ?_ ?_
  · simp only [wp_bind, askBool_wp]
    intro hcValid
    rw [if_pos trivial]
    simp only [wp_bind, keep_wp, set_wp, wp_pure]
    exact hok _ ⟨rfl, hbatch.prefix1 rfl hlen, _, rfl, rfl⟩
  · simp only [wp_bind, askBool_wp]
    exact fun _ => hfail _ rfl rfl

theorem replayBatch_wp {start drafts : List Int} {Q : Bool → World → Prop} (hfront : w.session.frontier = some start)
    (hne : drafts ≠ []) (hok : ∀ s, Stands s (start ++ drafts) → Q true ⟨s, w.missed⟩)
    (hfail : ∀ s, s.snapshot = w.session.snapshot → s.logits = w.session.logits → Q false ⟨s, w.missed⟩) :
    wp apply (replayBatch start drafts) Q w := by
  have hlen := List.length_pos_of_ne_nil hne
  rw [replayBatch]
  simp only [wp_bind, set_wp]
  refine verifySuffix_wp drafts hfront rfl (fun s hbatch hcheck hsnap hlogits => ?_) fun s hsnap hlogits => ?_
  · rw [wp_bind]
    refine readRow_wp hbatch.rows (Nat.sub_lt hlen Nat.one_pos) ?_ ?_
    · refine wp_ite (fun _ => ?_) fun _ => hfail _ hsnap hlogits
      rw [wp_bind, keep_wp]
      refine hok _ ⟨hcheck, hbatch.frontier, _, rfl, ?_⟩
      rw [Logits.history, Nat.sub_add_cancel hlen, List.take_length]
    · exact wp_ite (fun hread => by simp at hread) fun _ => hfail _ hsnap hlogits
  · rw [wp_bind]
    exact readAny_wp fun r => wp_ite (fun hverified => by simp at hverified) fun _ => hfail _ hsnap hlogits

/-- What a verifier leaves; `none` leaves the drafts to the sequential one. -/
def Verified (top : Logits → Int) (eosToken : Int) (h : List Int) (firstToken : Int) : Option Rc → World → Prop
  | some rc, w => Stepped top eosToken h firstToken rc w
  | none, w => w.missed = true ∨ Stands w.session (h ++ [firstToken])

theorem Verified.missed {eosToken firstToken : Int} {h : List Int} {rc : Option Rc} (hw : w.missed = true) :
    Verified top eosToken h firstToken rc w := by
  cases rc with
  | none => exact .inl hw
  | some rc => exact Stepped.missed hw

theorem restoreUnseen_wp {h : List Int} {Q : Unit → World → Prop} (hsnap : w.session.snapshot = some h)
    (hok : Q () ⟨{ w.session with frontier := some h }, w.missed⟩) (hmiss : ∀ s, Q () ⟨s, true⟩) :
    wp apply restoreUnseen Q w := by
  rw [restoreUnseen, wp_bind]
  refine frontierRestore_wp hsnap ?_ ?_
  · exact hok
  · exact hmiss _

section
variable {eosToken firstToken : Int} {h : List Int}

theorem giveUp_wp {haveFrontier : Bool} (hsnap : haveFrontier = true → w.session.snapshot = some (h ++ [firstToken]))
    (hlogits : ∃ l, w.session.logits = some l ∧ l.history = h ++ [firstToken]) :
    wp apply (giveUp (h ++ [firstToken]) haveFrontier) (Verified top eosToken h firstToken) w := by
  rw [giveUp]
  simp only [wp_bind, set_wp]
  refine wp_ite (fun hhave => ?_) fun _ => trivial
  rw [wp_bind]
  exact restoreUnseen_wp (hsnap hhave) (.inr ⟨rfl, rfl, hlogits⟩) fun _ => .inl rfl

theorem settleBatch_wp {start drafts : List Int} {commit : Nat} {haveFrontier : Bool} {Q : Bool → World → Prop}
    (hbatch : Batch w.session start drafts (decide (drafts.length = 2)))
    (hsnap : haveFrontier = true → w.session.snapshot = some start) (hlow : 1 ≤ commit) (hhigh : commit ≤ drafts.length)
    (hok : ∀ s, Stands s (start ++ drafts.take commit) → Q true ⟨s, w.missed⟩)
    (hfail : ∀ s, s.snapshot = w.session.snapshot → s.logits = w.session.logits → Q false ⟨s, w.missed⟩) :
    wp apply (settleBatch start drafts commit haveFrontier) Q w := by
  refine wp_ite (fun htwo => ?_) fun _ => ?_
  · obtain ⟨hlen, rfl⟩ := htwo
    rw [hlen] at hbatch
    exact commitPrefix_wp hbatch (Nat.le_of_eq hlen.symm) hok hfail
  · simp only [wp_bind, set_wp]
    refine wp_ite (fun hhave => ?_) fun _ => hfail _ rfl rfl
    rw [wp_bind]
    refine frontierRestore_wp (hsnap hhave) ?_ (hfail _ rfl rfl)
    refine replayBatch_wp rfl (fun hnil => ?_) hok hfail
    have := congrArg List.length hnil
    rw [List.length_take, List.length_nil] at this
    omega

/-- The drafts that a verifier commits are accepted. -/
theorem stepped_commit (drafts : List Int) (commit : Nat) {n : Nat} (hn : drafts.length ≤ n)
    (hfollow : Follows top (h ++ [firstToken]) (drafts.take commit))
    (hs : Stands w.session (h ++ [firstToken] ++ drafts.take commit)) :
    Stepped top eosToken h firstToken (.accepted (firstToken :: takeAccepted eosToken n (drafts.take commit))) w := by
  refine stepped_drafts ?_ hfollow ?_
  · exact (List.length_take_le' commit drafts).trans hn
  · rwa [List.append_assoc, List.singleton_append] at hs

theorem commitVerified_wp {drafts : List Int} {n commit : Nat} {haveFrontier : Bool} (hn : drafts.length ≤ n)
    (hbatch : Batch w.session (h ++ [firstToken]) drafts (decide (drafts.length = 2)))
    (hcheck : w.session.checkpoint = h ++ [firstToken] ++ drafts)
    (hsnap : haveFrontier = true → w.session.snapshot = some (h ++ [firstToken]))
    (hlogits : ∃ l, w.session.logits = some l ∧ l.history = h ++ [firstToken]) (hlow : 1 ≤ commit)
    (hhigh : commit ≤ drafts.length) (hfollow : Follows top (h ++ [firstToken]) (drafts.take commit)) :
    wp apply (commitVerified (h ++ [firstToken]) drafts
      (fun commit => firstToken :: takeAccepted eosToken n (drafts.take commit)) commit haveFrontier)
      (Verified top eosToken h firstToken) w := by
  have hsettle : wp apply (do
      let settled ← settleBatch (h ++ [firstToken]) drafts commit haveFrontier
      if settled then return some (.accepted (firstToken :: takeAccepted eosToken n (drafts.take commit)))
      else giveUp (h ++ [firstToken]) haveFrontier) (Verified top eosToken h firstToken) w := by
    rw [wp_bind]
    refine settleBatch_wp hbatch hsnap hlow hhigh (fun s hs => stepped_commit _ _ hn hfollow hs) fun s hsnap' hlogits' => ?_
    exact giveUp_wp (fun hhave => hsnap'.trans (hsnap hhave)) (hlogits' ▸ hlogits)
  rw [commitVerified]
  refine wp_ite (fun hall => ?_) fun _ => hsettle
  rw [wp_bind]
  refine commitAll_wp hbatch hcheck ?_ (fun s hs => ?_) hsettle
  · rw [← List.length_pos_iff]
    omega
  · refine stepped_commit _ _ hn hfollow ?_
    rwa [hall, List.take_length]

theorem microBatch_wp {draft : Int} {rest : List Int} {n : Nat} {haveFrontier : Bool}
    (hs : Stands w.session (h ++ [firstToken]))
    (hsnap : haveFrontier = true → w.session.snapshot = some (h ++ [firstToken]))
    (hfirst : Follows top (h ++ [firstToken]) [draft]) (hn : (draft :: rest).length ≤ n) :
    wp apply (microBatch top (h ++ [firstToken]) (draft :: rest)
      (fun commit => firstToken :: takeAccepted eosToken n ((draft :: rest).take commit)) haveFrontier)
      (Verified top eosToken h firstToken) w := by
  rw [microBatch]
  simp only [wp_bind, set_wp]
  refine verifySuffix_wp (draft :: rest) hs.frontier rfl (fun s hbatch hcheck hsnap' hlogits => ?_)
    fun s hsnap' hlogits => ?_
  · rw [if_pos rfl]
    simp only [wp_bind, session_wp]
    rw [hbatch.rows]
    refine commitDrafts_wp hfirst fun commit hlow hhigh hfollow => ?_
    simp only [wp_bind, askBool_wp]
    intro exactReplayDebug
    have hcommit := @commitVerified_wp top ⟨s, w.missed⟩ eosToken firstToken h (draft :: rest) n commit haveFrontier hn
      hbatch hcheck (fun hhave => hsnap'.trans (hsnap hhave)) (hlogits ▸ hs.logits) hlow hhigh hfollow
    refine wp_ite (fun hreplay => ?_) fun _ => hcommit
    rw [Bool.and_eq_true] at hreplay
    rw [wp_bind]
    refine exactReplay_wp (hsnap'.trans (hsnap hreplay.2)) ?_ (fun t ht => stepped_commit _ _ hn hfollow ht) fun t => ?_
    · rw [← List.length_pos_iff, List.length_take]
      omega
    · exact wp_missed rfl fun rc t ht => Verified.missed ht
  · exact giveUp_wp (fun hhave => hsnap'.trans (hsnap hhave)) (hlogits ▸ hs.logits)

theorem frontierSnapshot_wp {Q : Bool → World → Prop}
    (hok : Q true ⟨{ w.session with snapshot := w.session.frontier }, w.missed⟩)
    (hfail : Q false ⟨{ w.session with snapshot := none }, w.missed⟩) : wp apply frontierSnapshot Q w := by
  rw [frontierSnapshot]
  simp only [wp_bind, askBool_wp, set_wp, wp_pure]
  intro ok
  cases ok with
  | false => exact hfail
  | true => exact hok

theorem microVerify_wp {draft : Int} {rest : List Int} {n : Nat} (hs : Stands w.session (h ++ [firstToken]))
    (hfirst : Follows top (h ++ [firstToken]) [draft]) (hn : (draft :: rest).length ≤ n) :
    wp apply (microVerify top (h ++ [firstToken]) (draft :: rest)
      (fun commit => firstToken :: takeAccepted eosToken n ((draft :: rest).take commit)))
      (Verified top eosToken h firstToken) w := by
  rw [microVerify]
  simp only [wp_bind, askBool_wp]
  intro required
  refine wp_ite (fun _ => ?_) fun _ => microBatch_wp hs (fun hcontra => absurd hcontra (by decide)) hfirst hn
  rw [wp_bind]
  refine frontierSnapshot_wp ?_ (.inr ⟨hs.checkpoint, hs.frontier, hs.logits⟩)
  exact microBatch_wp ⟨hs.checkpoint, hs.frontier, hs.logits⟩ (fun _ => hs.frontier) hfirst hn

theorem exactVerify_wp {draft0 draft1 : Int} {n : Nat} (hs : Stands w.session (h ++ [firstToken]))
    (hfirst : Follows top (h ++ [firstToken]) [draft0]) (hn : 2 ≤ n) :
    wp apply (exactVerify top (h ++ [firstToken]) draft0 draft1
      (fun commit => firstToken :: takeAccepted eosToken n ([draft0, draft1].take commit)))
      (Verified top eosToken h firstToken) w := by
  rw [exactVerify, wp_bind]
  refine frontierSnapshot_wp ?_ (.inr ⟨hs.checkpoint, hs.frontier, hs.logits⟩)
  have hcache : ({ w.session with snapshot := w.session.frontier } : Session).cacheAt (h ++ [firstToken]).length =
      some (h ++ [firstToken]) := by
    rw [Session.cacheAt, hs.frontier]
    simp
  rw [if_pos rfl, wp_bind, verifyDecode2Exact]
  simp only [wp_bind, session_wp, askBool_wp, set_wp, wp_pure]
  intro ok
  cases ok with
  | false =>
    -- what the rows of a failed verifier are does not matter
    rw [if_neg Bool.false_ne_true, Option.map_none, topOf, askInt_wp]
    intro row0Top
    rw [Bool.false_and, if_neg Bool.false_ne_true, if_neg Bool.false_ne_true, wp_bind, wp_pure, if_neg Bool.false_ne_true]
    simp only [wp_bind, set_wp]
    exact restoreUnseen_wp hs.frontier (.inr ⟨rfl, rfl, hs.logits⟩) fun _ => .inl rfl
  | true =>
    rw [if_pos rfl, hcache, Option.map_some, topOf_wp]
    refine wp_ite (fun hrow0 => ?_) fun _ => ?_
    · simp only [wp_bind, keep_wp, set_wp]
      have hdraft1 : top (.step (h ++ [firstToken] ++ [draft0])) = draft1 := by simpa using hrow0
      refine stepped_commit [draft0, draft1] 2 hn ?_ ⟨rfl, rfl, _, rfl, rfl⟩
      exact hfirst.append (hdraft1 ▸ .cons rfl .nil)
    · rw [if_pos rfl, wp_bind, frontierCommitPrefix1]
      simp only [wp_bind, askBool_wp, set_wp, wp_pure]
      intro committed
      refine wp_ite (fun hcommitted => ?_) fun _ => ?_
      · subst hcommitted
        simp only [wp_bind, keep_wp, set_wp]
        exact stepped_commit [draft0, draft1] 1 hn hfirst ⟨rfl, rfl, _, rfl, rfl⟩
      · simp only [wp_bind, set_wp]
        exact restoreUnseen_wp hs.frontier (.inr ⟨rfl, rfl, hs.logits⟩) fun _ => .inl rfl

theorem sequentialEnd_wp (acc : List Int) {l : Logits} {verified : Bool}
    (hcheck : w.session.checkpoint = h ++ firstToken :: acc)
    (hfront : w.session.frontier = some (h ++ firstToken :: acc)) (hl : l.history = h ++ firstToken :: acc)
    (hlogits : verified = false → w.session.logits = some l) (hfollow : Follows top (h ++ [firstToken]) acc) :
    wp apply (sequentialEnd (firstToken :: acc) (some l) verified) (Stepped top eosToken h firstToken) w := by
  have hend : ∀ s : Session, s.checkpoint = w.session.checkpoint → s.frontier = w.session.frontier → s.logits = some l →
      Stepped top eosToken h firstToken (.accepted (firstToken :: acc)) ⟨s, w.missed⟩ := by
    intro s hc hf hs
    refine .inr ⟨acc, [], rfl, by rwa [List.append_nil], ?_, fun hne => absurd rfl hne⟩
    rw [List.append_nil]
    exact ⟨hc.trans hcheck, hf.trans hfront, l, hs, hl⟩
  refine wp_ite (fun _ => ?_) fun hnone => hend _ rfl rfl (hlogits (by simpa using hnone))
  simp only [wp_bind, askBool_wp]
  intro read
  refine wp_ite (fun _ => ?_) fun _ => trivial
  rw [wp_bind, set_wp]
  exact hend _ rfl rfl rfl

theorem sequentialVerify_wp {acceptedCap : Int} : ∀ {drafts : List Int} (acc : List Int) {l : Logits} {verified : Bool}
    {w : World}, w.session.checkpoint = h ++ firstToken :: acc → w.session.frontier = some (h ++ firstToken :: acc) →
    l.history = h ++ firstToken :: acc → (verified = false → w.session.logits = some l) →
    Follows top (h ++ [firstToken]) acc →
    wp apply (sequentialVerify top eosToken acceptedCap drafts (firstToken :: acc) (some l) verified)
      (Stepped top eosToken h firstToken) w
  | [], _, _, _, _, hcheck, hfront, hl, hlogits, hfollow => sequentialEnd_wp _ hcheck hfront hl hlogits hfollow
  | draft :: drafts, acc, l, verified, w, hcheck, hfront, hl, hlogits, hfollow => by
    rw [sequentialVerify, wp_bind, topOf_wp]
    refine wp_ite (fun _ => sequentialEnd_wp _ hcheck hfront hl hlogits hfollow) fun hgo => ?_
    have hdraft : top l = draft := Decidable.not_not.mp fun hne => hgo (.inr hne)
    -- one more draft has been confirmed
    have hmore : h ++ firstToken :: acc ++ [draft] = h ++ firstToken :: (acc ++ [draft]) := by simp
    have hfollow' : Follows top (h ++ [firstToken]) (acc ++ [draft]) :=
      hfollow.append (hdraft ▸ .cons (by rw [hl]; simp) .nil)
    simp only [wp_bind, session_wp]
    rw [hcheck]
    refine evalToken_wp hfront ?_ trivial
    rw [if_pos rfl]
    simp only [wp_bind, set_wp]
    refine wp_ite (fun _ => ?_) fun _ => ?_
    · exact sequentialEnd_wp (acc ++ [draft]) (by rw [hcheck, hmore]) (by rw [hmore]) hmore (fun hv => absurd hv (by decide))
        hfollow'
    · exact sequentialVerify_wp (acc ++ [draft]) (by rw [hcheck, hmore]) (by rw [hmore]) hmore
        (fun hv => absurd hv (by decide)) hfollow'

theorem marginSkip_wp {draft : Int} (hs : Stands w.session (h ++ [firstToken]))
    (hfirst : Follows top (h ++ [firstToken]) [draft]) :
    wp apply (marginSkip (h ++ [firstToken]) firstToken draft) (Stepped top eosToken h firstToken) w := by
  rw [marginSkip, wp_bind]
  refine evalToken_wp hs.frontier (wp_ite (fun _ => ?_) fun hcontra => absurd rfl hcontra) trivial
  simp only [wp_bind, keep_wp, set_wp]
  refine .inr ⟨[draft], [], rfl, hfirst, ?_, fun hne => absurd rfl hne⟩
  have hmore : h ++ [firstToken] ++ [draft] = h ++ [firstToken, draft] := by simp
  rw [List.append_nil, ← hmore]
  exact ⟨rfl, rfl, _, rfl, rfl⟩

/-- What a verifier has not settled, the sequential one does. -/
theorem verified_wp {acceptedCap : Int} {drafts : List Int} {p : Op (Option Rc)}
    (hp : wp apply p (Verified top eosToken h firstToken) w) :
    wp apply p (fun result => wp apply (match result with
      | some rc => return rc
      | none => do
        let t ← session
        sequentialVerify top eosToken acceptedCap drafts [firstToken] t.logits false) (Stepped top eosToken h firstToken)) w := by
  refine wp_mono (fun result t ht => ?_) hp
  cases result with
  | some rc => exact ht
  | none =>
    rw [wp_bind, session_wp]
    cases ht with
    | inl hmissed => exact wp_missed hmissed fun rc s hs => Stepped.missed hs
    | inr hs =>
      obtain ⟨l, hl, hhist⟩ := hs.logits
      rw [hl]
      exact sequentialVerify_wp [] hs.checkpoint hs.frontier hhist (fun _ => hl) .nil

theorem canonical_wp {cfg : Config} {maxTokens acceptedCap : Int} (hcap : 17 ≤ acceptedCap) (hs : Stands w.session h) :
    wp apply (canonicalArgmax top cfg firstToken maxTokens eosToken acceptedCap) (Stepped top eosToken h firstToken) w := by
  rw [canonicalArgmax, wp_bind]
  refine evalInternal_wp hs (fun s hs => ?_) fun s => ?_
  · refine wp_ite (fun hcontra => absurd hcontra (by decide)) fun _ => ?_
    simp only [wp_bind, askBool_wp, set_wp, session_wp]
    intro hcValid skipped
    obtain ⟨l, hl, hhist⟩ := hs.logits
    refine askCount_wp fun confident _ hconfident => ?_
    generalize hdraftCap : (if (cfg.dsparkReady && decide (0 < confident)) = true then (confident : Int)
      else min (min (min cfg.mtpDraftTokens (maxTokens - 1)) (acceptedCap - 1)) (cfg.ctxSize - s.checkpoint.length - 1)) =
      draftCap
    have hroom : draftCap ≤ acceptedCap - 1 := by
      split at hdraftCap <;> omega
    rw [wp_bind, hl, topOf_wp]
    refine wp_ite (fun _ => stepped_first ⟨hs.checkpoint, hs.frontier, l, rfl, hhist⟩) fun hgo => ?_
    simp only [not_or, Int.not_le] at hgo
    cases s.mtpDraft with
    | none => exact stepped_first ⟨hs.checkpoint, hs.frontier, l, rfl, hhist⟩
    | some draft =>
      simp only [wp_bind, set_wp]
      refine askCount_wp fun draftN hlow hhigh => ?_
      rw [wp_bind]
      refine askTokens_wp fun rest hrest => ?_
      simp only [wp_bind, askBool_wp]
      intro stopped uncertain exact
      rw [hs.checkpoint]
      have hstart : Stands { s with
          checkpoint := h ++ [firstToken]
          logits := some l
          combinedPrevHcValid := hcValid
          mtpDraft := none } (h ++ [firstToken]) := ⟨rfl, hs.frontier, l, rfl, hhist⟩
      refine wp_ite (fun _ => stepped_first hstart) fun hfirst => ?_
      have hdraft : top l = draft := Decidable.not_not.mp fun hne => hfirst (.inl hne)
      have hfollow : Follows top (h ++ [firstToken]) [draft] := hdraft ▸ .cons hhist .nil
      have hn : (draft :: rest).length ≤ (acceptedCap - 1).toNat := by
        rw [List.length_cons]
        split at hhigh <;> omega
      match rest, hn with
      | [], hn =>
        rw [wp_bind]
        exact verified_wp (microVerify_wp hstart hfollow hn)
      | [draft1], hn =>
        refine wp_ite (fun _ => marginSkip_wp hstart hfollow) fun _ => wp_ite (fun _ => ?_) fun _ => ?_
        · rw [wp_bind]
          exact verified_wp (exactVerify_wp hstart hfollow hn)
        · rw [wp_bind]
          exact verified_wp (microVerify_wp hstart hfollow hn)
      | draft1 :: draft2 :: rest, hn =>
        rw [wp_bind]
        exact verified_wp (microVerify_wp hstart hfollow hn)
  · exact wp_ite (fun _ => trivial) fun hcontra => absurd rfl hcontra

theorem orElse_wp {rc : Rc} {next : Op Rc} (hrc : Stepped top eosToken h firstToken rc w)
    (hnext : ∀ {t : World}, Stands t.session h → wp apply next (Stepped top eosToken h firstToken) t) :
    wp apply (rc.orElse next) (Stepped top eosToken h firstToken) w := by
  cases rc with
  | accepted tokens => exact hrc
  | error => trivial
  | gap => exact hrc.elim (fun hmissed => wp_missed hmissed fun rc s hs => Stepped.missed hs) hnext

theorem speculativeArgmax_wp {cfg : Config} {maxTokens acceptedCap : Int} (hmax : 0 < maxTokens) (hcap : 17 ≤ acceptedCap)
    (hs : Stands w.session h) :
    wp apply (speculativeArgmax top cfg firstToken maxTokens eosToken acceptedCap) (Stepped top eosToken h firstToken) w := by
  rw [speculativeArgmax]
  refine wp_ite (fun hcontra => by omega) fun _ => ?_
  simp only [wp_bind, session_wp, askBool_wp]
  intro strict
  have hseq : ∀ {t : World}, Stands t.session h →
      wp apply (do
        let seq ← if (cfg.dsparkReady && cfg.mtpSpecReady) || decide (4 < cfg.mtpDraftTokens)
          then speculativeArgmaxSeq top cfg firstToken maxTokens eosToken acceptedCap else pure .gap
        seq.orElse (canonicalArgmax top cfg firstToken maxTokens eosToken acceptedCap)) (Stepped top eosToken h firstToken) t := by
    intro t ht
    refine wp_ite (fun _ => ?_) fun _ => canonical_wp hcap ht
    rw [wp_bind]
    exact wp_mono (fun rc s hrc => orElse_wp hrc fun hs => canonical_wp hcap hs) (seq_wp ht)
  refine wp_ite (fun _ => ?_) fun _ => hseq hs
  rw [wp_bind]
  exact wp_mono (fun rc s hrc => orElse_wp hrc hseq) (combined_wp hs)

/-! ## Runs -/

theorem decodeStep_wp {cfg : Config} {maxTokens : Int} (hmax : 0 < maxTokens) (hs : Stands w.session h) :
    wp apply (decodeStep top cfg firstToken maxTokens eosToken) (Stepped top eosToken h firstToken) w := by
  rw [decodeStep, wp_bind, askBool_wp]
  intro speculative
  refine wp_ite (fun _ => speculativeArgmax_wp hmax (Int.le_refl 17) hs) fun _ => ?_
  rw [wp_bind]
  refine evalInternal_wp hs (fun s hs => ?_) fun s => ?_
  · exact wp_ite (fun _ => stepped_first hs) fun hcontra => absurd rfl hcontra
  · exact wp_ite (fun hcontra => absurd hcontra Bool.false_ne_true) fun _ => trivial

/-- Printed is the front of what a step accepted: all of it, all there is room for, or all in
    front of the end of the text. -/
theorem printed_front (eosToken : Int) : ∀ (n : Nat) (tokens : List Int),
    ∃ rest, tokens = (printed eosToken n tokens).1 ++ rest ∧ (printed eosToken n tokens).1.length ≤ n ∧
      eosToken ∉ (printed eosToken n tokens).1 ∧
      ((printed eosToken n tokens).2 = true → ∃ rest', rest = eosToken :: rest') ∧
      ((printed eosToken n tokens).2 = false → rest = [] ∨ (printed eosToken n tokens).1.length = n)
  | 0, tokens => ⟨tokens, rfl, Nat.le_refl 0, List.not_mem_nil, fun h => absurd h Bool.false_ne_true, fun _ => .inr rfl⟩
  | n + 1, [] => ⟨[], rfl, Nat.zero_le _, List.not_mem_nil, fun h => absurd h Bool.false_ne_true, fun _ => .inl rfl⟩
  | n + 1, token :: tokens => by
    rw [printed]
    split
    · next heos =>
      exact ⟨token :: tokens, rfl, Nat.zero_le _, List.not_mem_nil, fun _ => ⟨tokens, by rw [heos]⟩,
        fun h => absurd h.symm Bool.false_ne_true⟩
    · next hne =>
      obtain ⟨rest, hrest, hlen, heos, hstop, hgo⟩ := printed_front eosToken n tokens
      refine ⟨rest, congrArg (token :: ·) hrest, Nat.succ_le_succ hlen, ?_, hstop,
        fun h => (hgo h).imp_right Nat.succ_inj.mpr⟩
      exact fun hmem => (List.mem_cons.mp hmem).elim (fun h => hne h.symm) heos

theorem generate_zero {cfg : Config} (steps : Nat) : generate top cfg eosToken steps 0 = pure ([], .limit) := by
  cases steps with
  | zero => rw [generate]
  | succ steps =>
    rw [generate]
    exact fun hcontra => nomatch hcontra

theorem generate_bounds {cfg : Config} : ∀ (steps room : Nat) (w : World),
    wp apply (generate top cfg eosToken steps room) (fun r _ => r.1.length ≤ room ∧ eosToken ∉ r.1) w
  | 0, room, w => by
    rw [generate]
    exact ⟨Nat.zero_le _, List.not_mem_nil⟩
  | steps + 1, 0, w => by
    rw [generate_zero]
    exact ⟨Nat.zero_le _, List.not_mem_nil⟩
  | steps + 1, room + 1, w => by
    have hnone : ([] : List Int).length ≤ room + 1 ∧ eosToken ∉ ([] : List Int) := ⟨Nat.zero_le _, List.not_mem_nil⟩
    rw [generate, wp_bind, askBool_wp]
    intro interrupted
    rw [wp_bind, session_wp, wp_bind]
    refine wp_always fun token s => wp_ite (fun _ => hnone) fun _ => wp_ite (fun _ => hnone) fun _ => ?_
    rw [wp_bind]
    refine wp_always fun rc s => ?_
    cases rc with
    | error => exact hnone
    | gap => exact hnone
    | accepted tokens =>
      obtain ⟨_, _, hlen, heos, _⟩ := printed_front eosToken (room + 1) tokens
      refine wp_ite (fun _ => ⟨hlen, heos⟩) fun _ => ?_
      rw [wp_bind]
      refine wp_mono (fun rest s hrest => ⟨?_, ?_⟩)
        (generate_bounds steps (room + 1 - (printed eosToken (room + 1) tokens).1.length) s)
      · have := hrest.1
        rw [List.length_append]
        omega
      · exact fun hmem => (List.mem_append.mp hmem).elim heos hrest.2

/-- A stream behind `h`, and why it has ended. -/
structure Decoded (top : Logits → Int) (eosToken : Int) (h : List Int) (room : Nat) (tokens : List Int) (stop : Stop) :
    Prop where
  follows : Follows top h tokens
  limit : stop = .limit → tokens.length = room
  eos : stop = .eos → Follows top h (tokens ++ [eosToken])

theorem Decoded.nil {room : Nat} {stop : Stop} (hlimit : stop = .limit → room = 0)
    (heos : stop = .eos → Follows top h [eosToken]) : Decoded top eosToken h room [] stop := ⟨.nil, fun hstop => (hlimit hstop).symm, heos⟩

/-- A step, and a run behind it. -/
theorem Decoded.append {room : Nat} {tokens rest : List Int} {stop : Stop} (htokens : Follows top h tokens)
    (hlen : tokens.length ≤ room) (hrest : Decoded top eosToken (h ++ tokens) (room - tokens.length) rest stop) :
    Decoded top eosToken h room (tokens ++ rest) stop where
  follows := htokens.append hrest.follows
  limit hstop := by
    have := hrest.limit hstop
    rw [List.length_append]
    omega
  eos hstop := by
    rw [List.append_assoc]
    exact htokens.append (hrest.eos hstop)

theorem generate_wp {cfg : Config} : ∀ (steps room : Nat) {h : List Int} {w : World}, room ≤ steps → Stands w.session h →
    wp apply (generate top cfg eosToken steps room)
      (fun r w => w.missed = true ∨ Decoded top eosToken h room r.1 r.2) w
  | 0, room, h, w, hsteps, _ => by
    rw [generate]
    exact .inr (.nil (fun _ => Nat.le_zero.mp hsteps) fun hstop => nomatch hstop)
  | steps + 1, 0, h, w, _, _ => by
    rw [generate_zero]
    exact .inr (.nil (fun _ => rfl) fun hstop => nomatch hstop)
  | steps + 1, room + 1, h, w, hsteps, hs => by
    obtain ⟨l, hl, hhist⟩ := hs.logits
    rw [generate, wp_bind, askBool_wp]
    intro interrupted
    rw [wp_bind, session_wp, wp_bind, hl, topOf_wp]
    refine wp_ite (fun _ => .inr (.nil (fun hstop => nomatch hstop) fun hstop => nomatch hstop)) fun _ => ?_
    refine wp_ite (fun heos => .inr (.nil (fun hstop => nomatch hstop) fun _ => heos ▸ .cons hhist .nil)) fun _ => ?_
    rw [wp_bind]
    refine wp_mono (fun rc t ht => ?_) (decodeStep_wp (by omega) hs)
    cases rc with
    | error => exact .inr (.nil (fun hstop => nomatch hstop) fun hstop => nomatch hstop)
    | gap => exact .inr (.nil (fun hstop => nomatch hstop) fun hstop => nomatch hstop)
    | accepted tokens =>
      cases ht with
      | inl hmissed => exact wp_missed hmissed fun r s hs => .inl hs
      | inr ht =>
        obtain ⟨rest, extra, rfl, hfollow, hstands, heos⟩ := ht
        have hall : Follows top h (top l :: rest) := .cons hhist hfollow.front
        obtain ⟨back, hback, hlen, hnone, hstop, hgo⟩ := printed_front eosToken (room + 1) (top l :: rest)
        have hshown : Follows top h (printed eosToken (room + 1) (top l :: rest)).1 := Follows.front (hback ▸ hall)
        refine wp_ite (fun hend => .inr ⟨hshown, (fun hstop => nomatch hstop), fun _ => ?_⟩) fun hmore => ?_
        · -- the end of the text was the next token of the step
          obtain ⟨back', rfl⟩ := hstop hend
          rw [hback, List.append_cons] at hall
          exact hall.front
        · rw [wp_bind]
          cases hgo (by simpa using hmore) with
          | inl hnil =>
            -- all of the step's tokens were printed, so the session stands behind them
            rw [hnil, List.append_nil] at hback
            rw [← hback] at hnone hlen ⊢
            have hextra : extra = [] := Decidable.byContradiction fun hne => hnone (heos hne)
            rw [hextra, List.append_nil] at hstands
            refine wp_mono (fun r s hr => hr.imp_right (.append hall hlen)) (generate_wp steps _ ?_ hstands)
            rw [List.length_cons]
            omega
          | inr hfull =>
            rw [hfull, Nat.sub_self, generate_zero]
            exact .inr (.append hshown hlen (.nil (fun _ => by rw [hfull, Nat.sub_self]) fun hstop => nomatch hstop))

/-- Plain greedy decoding, of a model whose arg max depends on the history alone. -/
def greedy (best : List Int → Int) : List Int → Nat → List Int
  | _, 0 => []
  | h, n + 1 => best h :: greedy best (h ++ [best h]) n

theorem Follows.greedy {best : List Int → Int} (hbest : ∀ l, top l = best l.history) {tokens : List Int}
    (hfollow : Follows top h tokens) : tokens = greedy best h tokens.length := by
  induction hfollow with
  | nil => rfl
  | @cons h tokens l hl _ ih =>
    rw [hbest l, hl] at ih ⊢
    rw [List.length_cons, Greedy.greedy, ← ih]

/-- What a run of the loop prints, over every course of the device calls and every draft:
    within the limit, without the end of the text, and unless a failed call was passed over,
    the stream of the main model, whole up to where the loop says it has stopped. -/
theorem generate_exact {cfg : Config} {prompt : List Int} {s : Session} (hs : Stands s prompt) (room : Nat)
    (answers : List Int) :
    ∃ tokens stop w, (generate top cfg eosToken room room).run apply ⟨s, false⟩ answers = ((tokens, stop), w) ∧
      tokens.length ≤ room ∧ eosToken ∉ tokens ∧
      (w.missed = true ∨ Decoded top eosToken prompt room tokens stop ∧
        ∀ best, (∀ l, top l = best l.history) → tokens = greedy best prompt tokens.length) := by
  have hwp : wp apply (generate top cfg eosToken room room) (fun r w => (r.1.length ≤ room ∧ eosToken ∉ r.1) ∧
      (w.missed = true ∨ Decoded top eosToken prompt room r.1 r.2)) ⟨s, false⟩ :=
    wp_and (generate_bounds room room _) (generate_wp room room (Nat.le_refl room) hs)
  obtain ⟨⟨hlen, heos⟩, hdecoded⟩ := Program.wp_run hwp answers
  exact ⟨_, _, _, rfl, hlen, heos, hdecoded.imp_right fun hd => ⟨hd, fun best hbest => hd.follows.greedy hbest⟩⟩

/-- Behind [7], a model whose next token is the number of tokens it has read: a step whose
    two drafts hold, one whose draft does not, and a canonical one. -/
def warm : Session :=
  { checkpoint := [7]
    checkpointValid := true
    logits := some (.step [7])
    frontier := some [7]
    prefix1 := none
    prefix2 := none
    snapshot := none
    specLogits := []
    mtpDraft := none
    combinedPrevHcValid := true }

def drafting : Program Action World (List Int × Stop) :=
  generate (fun l => l.history.length)
    { mtpReady := true
      mtpSpecReady := true
      dsparkReady := false
      dsparkKind := false
      mtpDraftTokens := 2
      ctxSize := 100
      hasPrevHc := true
      hasCurHc := true } 99 5 5

def draftingAnswers : List Int :=
  [0, 1, 0, 1, 1, 2, 2, 3, 1, 1, 1] ++ [0, 1, 0, 1, 1, 1, 9, 1, 1, 1, 1] ++ [0, 1, 0, 0, 1]

theorem drafting_five : (drafting.run apply ⟨warm, false⟩ draftingAnswers).1.1 = [1, 2, 3, 4, 5] ∧
    (drafting.run apply ⟨warm, false⟩ draftingAnswers).2.missed = false ∧
    ∃ tokens stop w, drafting.run apply ⟨warm, false⟩ draftingAnswers = ((tokens, stop), w) ∧
      tokens.length ≤ 5 ∧ 99 ∉ tokens ∧
      (w.missed = true ∨ Decoded (fun l => l.history.length) 99 [7] 5 tokens stop ∧
        ∀ best : List Int → Int, (∀ l : Logits, (l.history.length : Int) = best l.history) →
          tokens = greedy best [7] tokens.length) :=
  ⟨by decide, by decide, generate_exact ⟨rfl, rfl, _, rfl, rfl⟩ 5 draftingAnswers⟩

end

end Ds4.Engine.Greedy
