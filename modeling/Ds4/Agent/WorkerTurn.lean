import Ds4.Agent.StreamReading

/- A turn of the agent's worker in ds4_agent.c, from the first token the model makes to
   the calls that are executed.

   Correspondence (C ↔ Lean):
     the token loop of `worker_run_turn`     ↔ `turnLoop`, a batch of tokens a round
     what it makes of the turn afterwards    ↔ `workerTurn`
   A batch is one token, or the tokens that speculative decoding commits at once, or the
   text that is forced in place of a token. `stopped` says that the end of the text or the
   limit of tokens came in it, and then the loop ends before it looks at the calls;
   `editFailed` says that an edit failed its early check in it. An interrupt ends the list
   of batches too.

   What is proved:
   1. `block_step`, `behind_step` — what a byte makes of a block and behind it.
   2. `stream_reads` — so wherever the stream stands, it has read the text for what it says.
   3. `turn_calls_exact` — so a turn executes the calls of the first block behind the
      thinking, and only if no marker stands elsewhere. -/
namespace Ds4.Agent
open Ds4 Bytes Resume

/-! ## The turn -/

/-- The texts of the tokens of one round of the loop. -/
structure DecodedBatch where
  tokens : List Bytes
  stopped : Bool := false
  editFailed : Bool := false

def DecodedBatch.text (b : DecodedBatch) : Bytes := b.tokens.flatten

inductive LoopEnd where
  | ended | gotTool | malformedTool | earlyToolError
deriving DecidableEq

def turnLoop (c : AgentStream × Bytes) : List DecodedBatch → (AgentStream × Bytes) × LoopEnd
  | [] => (c, .ended)
  | b :: bs =>
    let c := b.tokens.foldl (streamText false) c
    if b.stopped then (c, .ended)
    else if c.1.parser.state = .done then (c, .gotTool)
    else if b.editFailed then (c, .earlyToolError)
    else if c.1.parser.state = .error then (c, .malformedTool)
    else if c.1.dsmlInThink then (c, .malformedTool)
    else turnLoop c bs

inductive TurnEnd where
  | idle
  | malformed (error : Bytes)
  | editFailed
  | calls (calls : List AgentDsmlCall)
deriving DecidableEq

/-- The turn of a model that thinks first or not, and whether the user has interrupted it. -/
def workerTurn (think interrupted : Bool) (batches : List DecodedBatch) : TurnEnd :=
  let (c, how) := turnLoop ({ inThink := think }, []) batches
  let s := (streamText true c []).1
  if interrupted then .idle
  else if s.dsmlInThink then .malformed inThinkMsg
  else if how = .earlyToolError then .editFailed
  else if how = .malformedTool ∨ s.parser.state = .error then
    .malformed (if s.parser.error = [] then utf8 "parse error" else s.parser.error)
  else if how = .gotTool then .calls s.parser.calls
  else if s.parser.state = .structural ∨ s.parser.state = .paramValue then .malformed (utf8 "incomplete DSML tool call")
  else .idle

/-- A block up to its end. -/
structure Block (think : Bool) (x body e y : Bytes) (els : List DsmlElement) (thought plain : Bytes) : Prop where
  opens : ∃ opensCall, Opens think x (body ++ e ++ y) opensCall thought plain ∧ Spells els (blockHead opensCall ++ body)
  ends : ClosingTag (utf8 "tool_calls") e

/-- A text that makes calls: the thinking holds no marker, neither does the text in front
    of the block and behind it, and the block spells the calls. -/
def Called (think : Bool) (text : Bytes) (calls : List AgentDsmlCall) : Prop :=
  ∃ x body e y els thought plain, text = x ++ body ++ e ++ y ∧ Block think x body e y els thought plain ∧
    ¬HasMarker thought ∧ ¬HasMarker (plain ++ y) ∧ callsOf els = calls

/-- The text of batches. -/
def textOf (bs : List DecodedBatch) : Bytes := bs.flatMap DecodedBatch.text

/-- Behind the closing tag of a block, nothing of the batch it ends in begins a tag. -/
def EndsBatch (bs : List DecodedBatch) : Prop :=
  ∀ pre b post, bs = pre ++ b :: post → ∀ u e y, textOf (pre ++ [b]) = u ++ e ++ y →
    ClosingTag (utf8 "tool_calls") e → (textOf pre).length < (u ++ e).length → 60 ∉ y

/-! ## A block -/

/-- Neither in the thinking nor right behind it, and nothing is held back. -/
structure Clear (thought plain : Bytes) (s : AgentStream) : Prop where
  inThink : s.inThink = false
  dsmlInThink : s.dsmlInThink = false
  held : s.dsmlStartTail = []
  gap : s.postThinkGap = false
  thinkTail : Tail 32 thought s.thinkDsml
  plainTail : Tail 32 plain s.plainDsml
  thinkClean : ¬HasMarker thought
  plainClean : ¬HasMarker plain

/-- Within a block, with its bytes so far. -/
structure InBlock (thought plain b : Bytes) (s : AgentStream) : Prop extends Clear thought plain s where
  fed : Fed s.parser (dsmlReader.run startedParser b)
  live : ¬s.parser.Ended
  active : s.dsmlActive = true
  ignored : s.dsmlIgnored = false

/-- Behind a block that ended well. -/
structure Behind (thought plain : Bytes) (calls : List AgentDsmlCall) (s : AgentStream) : Prop extends
    Clear thought plain s where
  done : s.parser.state = .done
  calls : s.parser.calls = calls
  active : s.dsmlActive = false

theorem started_between : startedParser.Between := ⟨rfl, rfl⟩

variable {thought plain : Bytes} {s : AgentStream}

/-- What a byte makes of a block. -/
theorem block_step {b : Bytes} (h : InBlock thought plain b s) (c : UInt8) :
    (¬(dsmlReader.run startedParser (b ++ [c])).1.Ended → InBlock thought plain (b ++ [c]) (feedDsmlByte s c)) ∧
    ((dsmlReader.run startedParser (b ++ [c])).1.state = .done →
      ∃ els body e, b ++ [c] = body ++ e ∧ Spells els body ∧ ClosingTag (utf8 "tool_calls") e ∧
        Behind thought plain (callsOf els) (feedDsmlByte s c)) ∧
    ((dsmlReader.run startedParser (b ++ [c])).1.state = .error → Doomed (feedDsmlByte s c)) := by
  have hfed : Fed (agentDsmlFeed s.parser [c]) (dsmlReader.run startedParser (b ++ [c])) := by
    have hfeed := feed_fed h.fed (Reader.take_run _ _) [c]
    rwa [Reader.feed, ← Reader.run_append] at hfeed
  rw [feedDsmlByte]
  dsimp only
  generalize agentDsmlFeed s.parser [c] = q at hfed
  have hstate : (dsmlReader.run startedParser (b ++ [c])).1.state = q.state := by
    rw [← hfed.1]
    rfl
  rw [AgentDsmlParser.Ended, hstate]
  refine ⟨fun hlive => ?_, fun hdone => ?_, fun herr => ?_⟩
  · obtain ⟨hdone, herr⟩ := not_or.mp hlive
    rw [if_neg hdone, if_neg herr]
    exact ⟨⟨h.inThink, h.dsmlInThink, h.held, h.gap, h.thinkTail, h.plainTail, h.thinkClean, h.plainClean⟩, hfed, hlive,
      h.active, h.ignored⟩
  · rw [if_pos hdone, h.ignored, if_neg Bool.false_ne_true]
    obtain ⟨els, body, e, rest, hb, hspells, he, hcalls⟩ := done_spells started_between (hstate.trans hdone)
    rcases List.eq_nil_or_concat rest with rfl | ⟨r, d, rfl⟩
    · rw [List.append_nil] at hb
      refine ⟨els, body, e, hb, hspells, he, ⟨h.inThink, h.dsmlInThink, h.held, h.gap, h.thinkTail, h.plainTail, h.thinkClean,
        h.plainClean⟩, hdone, ?_, rfl⟩
      rw [← hfed.1] at hcalls
      exact hcalls
    · -- a block that ended before this byte
      rw [List.concat_eq_append, ← List.append_assoc] at hb
      obtain ⟨hb, -⟩ := List.append_inj' hb rfl
      obtain ⟨q', hread, hdone', -⟩ := block_read hspells he r started_between
      refine absurd (.inl ?_) h.live
      have hcore := h.fed.1
      rw [hb, hread] at hcore
      exact (congrArg AgentDsmlParser.state hcore).trans hdone'
  · rw [if_neg (by rw [herr]; decide), if_pos herr, h.ignored, if_neg Bool.false_ne_true]
    exact .inr ⟨herr, rfl⟩

/-- A block goes on as long as its bytes do not end it. -/
theorem block_on (t : Bytes) : ∀ {b : Bytes} {s : AgentStream}, InBlock thought plain b s →
    (∀ t', t' <+: t → ¬(dsmlReader.run startedParser (b ++ t')).1.Ended) →
    InBlock thought plain (b ++ t) (t.foldl feedDsmlByte s) := by
  induction t with
  | nil => exact fun {b s} h _ => by rwa [List.append_nil]
  | cons c t ih =>
    intro b s h hlive
    have hnext := (block_step h c).1 (hlive [c] ⟨t, rfl⟩)
    rw [show b ++ c :: t = b ++ [c] ++ t by simp, List.foldl_cons]
    refine ih hnext fun t' ht' => ?_
    rw [List.append_assoc]
    exact hlive (c :: t') (List.cons_prefix_cons.mpr ⟨rfl, ht'⟩)

/-- No bytes in front of its end end a block. -/
theorem ends_last {els : List DsmlElement} {body e b r : Bytes} (h : Spells els body) (he : ClosingTag (utf8 "tool_calls") e)
    (hb : body ++ e = b ++ r) (hr : r ≠ []) : ¬(dsmlReader.run startedParser b).1.Ended := by
  intro hended
  obtain ⟨q, hread, -⟩ := block_read h he [] started_between
  rw [List.append_nil, hb, Reader.run_append] at hread
  have hstop : dsmlReader.take (dsmlReader.run startedParser b).1 ((dsmlReader.run startedParser b).2 ++ r) = none := by
    change dsmlTake _ _ = none
    rw [dsmlTake, if_neg (ended_not_search hended), round_ended hended]
    rfl
  rw [Reader.run_none hstop] at hread
  exact hr (List.append_eq_nil_iff.mp (Prod.mk.inj hread).2).2

/-- What stands behind the start of a block. -/
theorem opened_block (h : Outside {} thought plain s) (hin : s.inThink = false) (opensCall : Bool) :
    InBlock thought plain (blockHead opensCall) (openedStream s opensCall) := by
  have hfed : Fed (agentDsmlStart {}) (dsmlReader.run startedParser []) :=
    ⟨rfl, .inr (.inr ⟨by decide, by decide +kernel, by decide +kernel⟩)⟩
  have hlive : ¬(agentDsmlStart {}).Ended := not_or.mpr ⟨by decide, by decide⟩
  have hstart : InBlock thought plain [] (startDsml s false) := by
    refine ⟨⟨hin, ?_, rfl, rfl, h.thinkTail, h.plainTail, h.thinkClean, h.plainClean⟩, ?_, ?_, rfl, rfl⟩
    · rw [startDsml, h.dsmlInThink]
      rfl
    · rw [startDsml, h.parser]
      exact hfed
    · rw [startDsml, h.parser]
      exact hlive
  have hhead : ∀ n ≤ canonicalInvoke.length, (dsmlReader.run startedParser (canonicalInvoke.take n)).1.state ≠ .done ∧
      (dsmlReader.run startedParser (canonicalInvoke.take n)).1.state ≠ .error := by decide +kernel
  cases opensCall with
  | false => exact hstart
  | true =>
    refine block_on canonicalInvoke hstart fun t' ht' => ?_
    have hn := hhead t'.length ht'.length_le
    rw [← List.prefix_iff_eq_take.mp ht'] at hn
    exact not_or.mpr hn

/-- What a byte makes of the text behind a block. -/
theorem behind_step {calls : List AgentDsmlCall} (h : Behind thought plain calls s) {c : UInt8} (hc : c ≠ 60) :
    (¬HasMarker (plain ++ [c]) → Behind thought (plain ++ [c]) calls (normalByte s c)) ∧
      (HasMarker (plain ++ [c]) → Doomed (normalByte s c)) := by
  have hlive : s.parser.state ≠ .error := by
    rw [h.done]
    decide
  have hthink : noteThinkingDsmlByte s c = s := by
    rw [noteThinkingDsmlByte, h.inThink]
    rfl
  have hgap : { s with postThinkGap := false } = s := by rw [← h.gap]
  rw [normalByte, if_neg hlive, hthink]
  dsimp only
  rw [h.gap, Bool.false_and, if_neg Bool.false_ne_true, if_neg (not_or.mpr ⟨not_not.mpr h.held, hc⟩), hgap]
  have hout : Outside s.parser thought plain s :=
    ⟨rfl, hlive, h.active, h.dsmlInThink, h.thinkTail, h.plainTail, h.thinkClean, h.plainClean⟩
  obtain ⟨hclean, hmark⟩ := writeByte_plain hout h.inThink c
  refine ⟨fun hm => ?_, fun hm => .inr (hmark hm)⟩
  obtain ⟨d, sh, hwrite, htail⟩ := hclean hm
  rw [hwrite]
  exact ⟨⟨h.inThink, h.dsmlInThink, h.held, h.gap, h.thinkTail, htail, h.thinkClean, hm⟩, h.done, h.calls, h.active⟩

/-! ## Where the stream stands -/

theorem NoTagIn.nil (r : Bytes) : NoTagIn [] r := by
  intro u v h hv
  exact absurd (List.append_eq_nil_iff.mp h.symm).2 hv

theorem NoTagIn.concat {t r : Bytes} {c : UInt8} (h : NoTagIn t (c :: r)) (hc : ∀ o, startsWith (thinkTag o) (c :: r) = false) :
    NoTagIn (t ++ [c]) r := by
  intro u v huv hv o
  rcases List.eq_nil_or_concat v with rfl | ⟨w, d, rfl⟩
  · exact absurd rfl hv
  rw [List.concat_eq_append, ← List.append_assoc] at huv
  obtain ⟨htu, hd⟩ := List.append_inj' huv rfl
  obtain rfl := List.singleton_inj.mp hd
  rw [List.concat_eq_append, List.append_assoc]
  cases w with
  | nil => exact hc o
  | cons x w => exact h u (x :: w) htu (List.cons_ne_nil x w) o

theorem NoTagIn.front {t r z : Bytes} (h : NoTagIn t (r ++ z)) : NoTagIn t r := by
  intro u v huv hv o
  have hno := Bool.eq_false_iff.mp (h u v huv hv o)
  refine Bool.eq_false_iff.mpr fun hs => hno ?_
  rw [startsWith, List.isPrefixOf_iff_prefix] at hs ⊢
  rw [← List.append_assoc]
  exact hs.trans (List.prefix_append _ z)

/-- Where a byte is taken outside of a block no tag begins, whatever comes. -/
theorem no_tag_here {c : UInt8} {r : Bytes} (h : ∀ o, startsWith (thinkTag o) (c :: r) = false ∧
    (false = false → partialPrefix (thinkTag o) (c :: r) = false)) (z : Bytes) (o : Bool) :
    startsWith (thinkTag o) (c :: (r ++ z)) = false := by
  obtain ⟨hs, hp⟩ := h o
  rw [Bool.eq_false_iff]
  intro hz
  rcases @startsWith_more_cases (thinkTag o) (c :: r) z hz with hs' | hp'
  · rw [hs] at hs'
    cases hs'
  · rw [hp rfl] at hp'
    cases hp'

theorem Opens.front {think : Bool} {x r z : Bytes} {i : Bool} (h : Opens think x (r ++ z) i thought plain) :
    Opens think x r i thought plain := by
  obtain ⟨text, t, m, before, f, hx, hread, hm, hno, hrest⟩ := h.split
  exact ⟨text, t, m, before, f, hx, hread, hm, hno.front, hrest⟩

/-- A block is not over, with `x` read and `r` unread. -/
inductive Open (think : Bool) (x r : Bytes) (s : AgentStream) : Prop
  | plain {text t thought before noted : Bytes} {m : Mode} : x = text ++ t → Reading think text m thought before →
      m.think = false → (∀ z, NoTagIn t (r ++ z)) → Plainly thought before m t noted s → Open think x r s
  | thinks {text t thought before : Bytes} {m : Mode} : x = text ++ t → Reading think text m thought before →
      m.think = true → (∀ z, NoTagIn t (r ++ z)) → Thinks (thought ++ t) before s → Open think x r s
  | block {y b thought plain : Bytes} {i : Bool} : x = y ++ b → (∀ z, Opens think y (b ++ (r ++ z)) i thought plain) →
      InBlock thought plain (blockHead i ++ b) s → Open think x r s

/-- Where the stream may stand with `x` read and `r` unread; `n` bytes were read when a
    block was last known not to be over. -/
inductive Stands (think : Bool) (n : Nat) (x r : Bytes) (s : AgentStream) : Prop
  | opened : Open think x r s → Stands think n x r s
  | behind {y body e z : Bytes} {els : List DsmlElement} {thought plain : Bytes} : x = y ++ body ++ e ++ z →
      (∀ w, Block think y body e (z ++ (r ++ w)) els thought plain) → n < (y ++ body ++ e).length →
      Behind thought (plain ++ z) (callsOf els) s → Stands think n x r s
  | lost {y e z : Bytes} : x = y ++ e ++ z → ClosingTag (utf8 "tool_calls") e → n < (y ++ e).length → 60 ∈ z →
      Stands think n x r s
  | doomed : Doomed s → Stands think n x r s

theorem Stands.since {think : Bool} {n n' : Nat} {x r : Bytes} (h : Stands think n x r s) (hn : n' ≤ n) :
    Stands think n' x r s := by
  cases h with
  | opened h => exact .opened h
  | behind hx hblock hlt h => exact .behind hx hblock (Nat.lt_of_le_of_lt hn hlt) h
  | lost hx he hlt hz => exact .lost hx he (Nat.lt_of_le_of_lt hn hlt) hz
  | doomed h => exact .doomed h

/-- What the two think tags do. -/
def tagged (o : Bool) (s : AgentStream) : AgentStream := if o then openThink s else closeThink s

/-- Behind a tag a stretch begins. -/
theorem open_tag {think : Bool} {text : Bytes} {o : Bool} (r : Bytes) (hread : Reading think text ⟨o, !o⟩ thought plain)
    (h : Outside {} thought plain (flushStartTail s)) (htail : (flushStartTail s).dsmlStartTail = []) :
    Open think text r (tagged o s) := by
  cases o with
  | true => exact .thinks (List.append_nil text).symm hread rfl (fun z => .nil _) (by
      rw [List.append_nil]
      exact tag_opened h htail)
  | false => exact .plain (List.append_nil text).symm hread rfl (fun z => .nil _) (tag_closed h htail)

theorem Open.tag {think : Bool} {x r : Bytes} {o : Bool} (h : Open think x (thinkTag o ++ r) s) (hact : s.dsmlActive = false) :
    Open think (x ++ thinkTag o) r (tagged o s) ∨ Doomed (tagged o s) := by
  cases h with
  | @plain text t thought before noted m hx hread hm hno h =>
    obtain ⟨hclean, hmark⟩ := h.flushed
    have hnext := Reading.tag o hread (hno r).front.front fun _ => by
      rw [h.said_eq]
      exact h.fresh
    rw [hm, if_neg Bool.false_ne_true, if_neg Bool.false_ne_true, List.append_nil] at hnext
    by_cases hmarked : HasMarker (before ++ said m.gap t)
    · refine .inr ?_
      cases o
      · exact hmark hmarked
      · exact hmark hmarked
    · obtain ⟨hout, htail⟩ := hclean hmarked
      exact .inl (hx ▸ open_tag r hnext hout htail)
  | @thinks text t thought before m hx hread hm hno h =>
    obtain ⟨hout, htail⟩ := h.flushed
    have hnext := Reading.tag o hread (hno r).front.front fun hm' => by
      rw [hm] at hm'
      cases hm'
    rw [hm, if_pos rfl, if_pos rfl, List.append_nil] at hnext
    exact .inl (hx ▸ open_tag r hnext hout htail)
  | block hx hopens h =>
    rw [h.active] at hact
    cases hact

/-- A closing tag does not begin in the start of a call. -/
theorem head_kept {i : Bool} {body e z : Bytes} (h : body ++ e = blockHead i ++ z) (he : ClosingTag (utf8 "tool_calls") e) :
    ∃ body', body = blockHead i ++ body' ∧ z = body' ++ e := by
  rcases List.append_eq_append_iff.mp h with ⟨a, ha, hz⟩ | ⟨a, ha, hz⟩
  · cases a with
    | nil => exact ⟨[], by rw [ha, List.append_nil, List.append_nil], by rw [hz]; rfl⟩
    | cons d a =>
      obtain ⟨k, rfl⟩ : ∃ k, e = 60 :: 47 :: k := by
        obtain ⟨w, bar, w', rfl, -⟩ := he
        exact ⟨(utf8 "</｜DSML｜").drop 2 ++ utf8 "tool_calls" ++ w ++ bar ++ w' ++ [62], by rw [closeTagHead]; rfl⟩
      cases i with
      | false => cases (List.append_eq_nil_iff.mp ha.symm).2
      | true =>
        obtain ⟨l, hl, hno⟩ : ∃ l, canonicalInvoke = 60 :: 239 :: l ∧ 60 ∉ l := ⟨canonicalInvoke.drop 2, rfl, by decide +kernel⟩
        change canonicalInvoke = _ at ha
        rw [hl] at ha
        obtain ⟨rfl, hz⟩ := List.cons.inj hz
        cases body with
        | nil =>
          rw [List.nil_append, List.cons_inj_right] at ha
          rw [← ha] at hz
          cases (List.cons.inj (List.cons.inj hz).2).1
        | cons x body =>
          obtain ⟨-, ha⟩ := List.cons.inj ha
          have hmem : (60 : UInt8) ∈ 239 :: l := by
            rw [ha]
            simp
          exact absurd hmem (by simp [hno])
  · exact ⟨a, ha, hz⟩

/-- A byte where no tag begins. -/
theorem Open.byte {think : Bool} {x r : Bytes} {c : UInt8} (h : Open think x (c :: r) s)
    (hno : s.dsmlActive = false → ∀ o, startsWith (thinkTag o) (c :: r) = false ∧
      (false = false → partialPrefix (thinkTag o) (c :: r) = false)) :
    Stands think x.length (x ++ [c]) r (streamByte s c) := by
  cases h with
  | @plain text t thought before noted m hx hread hm htags h =>
    have hnext : ∀ z, NoTagIn (t ++ [c]) (r ++ z) := fun z => (htags z).concat (no_tag_here (hno h.active) z)
    rw [streamByte, h.active, if_neg Bool.false_ne_true]
    have hstep := stretch_step h c
    generalize normalByte s c = s' at hstep
    cases hstep with
    | goes h' => exact .opened (.plain (by rw [hx, List.append_assoc]) hread hm hnext h')
    | @opens f i hf hsaid =>
      refine .opened (.block (List.append_nil _).symm (fun z => ⟨text, t ++ [c], m, before, f, by rw [hx, List.append_assoc], hread,
        hm, hnext z, hf, noted, hsaid, rfl, ?_⟩) (by
          rw [List.append_nil]
          exact opened_block h.toOutside h.inThink i))
      intro t' ht' hne
      rcases List.prefix_concat_iff.mp ht' with rfl | ⟨w, rfl⟩
      · exact absurd rfl hne
      · refine NoStart.mono ?_ (said_mono m.gap t' w).isInfix
        rw [h.said_eq]
        exact h.fresh
    | doomed _ _ _ hd => exact .doomed hd
  | @thinks text t thought before m hx hread hm htags h =>
    rw [streamByte, h.active, if_neg Bool.false_ne_true]
    obtain ⟨hclean, hmark⟩ := thinks_step h c
    by_cases hmarked : HasMarker (thought ++ t ++ [c])
    · exact .doomed (hmark hmarked)
    · refine .opened (.thinks (by rw [hx, List.append_assoc]) hread hm
        (fun z => (htags z).concat (no_tag_here (hno h.active) z)) ?_)
      rw [← List.append_assoc]
      exact hclean hmarked
  | @block y b thought plain i hx hopens h =>
    rw [streamByte, h.active, if_pos rfl]
    have hnext : ∀ z, Opens think y (b ++ [c] ++ (r ++ z)) i thought plain := by
      intro z
      rw [List.append_assoc]
      exact hopens z
    obtain ⟨hlive, hdone, herr⟩ := block_step h c
    by_cases hended : (dsmlReader.run startedParser (blockHead i ++ b ++ [c])).1.Ended
    · rcases hended with hd | he
      · obtain ⟨els, body, e, hb, hspells, he, hbehind⟩ := hdone hd
        obtain ⟨body', rfl, hcut⟩ := head_kept (by rw [← hb, List.append_assoc]) he
        have hlen := congrArg List.length hcut
        refine @Stands.behind think _ _ _ _ y body' e [] els thought plain ?_ (fun w => ⟨⟨i, ?_, hspells⟩, he⟩) ?_
          (by rwa [List.append_nil])
        · rw [hx, List.append_nil, List.append_assoc, List.append_assoc, hcut]
        · have hw := hnext w
          rwa [hcut] at hw
        · rw [hx, List.append_assoc, ← hcut]
          simp
      · exact .doomed (herr he)
    · refine .opened (.block (by rw [hx, List.append_assoc]) hnext ?_)
      rw [← List.append_assoc]
      exact hlive hended

theorem Open.taken {think : Bool} {x q : Bytes} {t : AgentStream} {k : Nat} (h : Open think x q s)
    (ht : Taken false s q t k) : Stands think x.length (x ++ q.take k) (q.drop k) t := by
  cases ht with
  | opened hact =>
    rw [List.take_left, List.drop_left]
    exact (h.tag hact).elim .opened .doomed
  | closed hact =>
    rw [List.take_left, List.drop_left]
    exact (h.tag hact).elim .opened .doomed
  | byte hno => exact h.byte hno

theorem Block.front {think : Bool} {x body e y z : Bytes} {els : List DsmlElement}
    (h : Block think x body e (y ++ z) els thought plain) : Block think x body e y els thought plain := by
  obtain ⟨⟨i, hopens, hspells⟩, he⟩ := h
  rw [← List.append_assoc] at hopens
  exact ⟨⟨i, hopens.front, hspells⟩, he⟩

theorem Stands.taken {think : Bool} {n : Nat} {x q : Bytes} {t : AgentStream} {k : Nat} (h : Stands think n x q s)
    (hn : n ≤ x.length) (ht : Taken false s q t k) : Stands think n (x ++ q.take k) (q.drop k) t := by
  cases h with
  | opened h => exact (h.taken ht).since hn
  | @behind y body e z els thought plain hx hblock hlt h =>
    have hlost : ∀ o r, Stands think n (x ++ thinkTag o) r t := by
      intro o r
      obtain ⟨l, hl, -⟩ := thinkTag_eq o
      refine .lost (y := y ++ body) (z := z ++ thinkTag o) ?_ (hblock []).ends hlt ?_
      · rw [hx, List.append_assoc]
      · rw [hl]
        simp
    cases ht with
    | opened _ =>
      rw [List.take_left]
      exact hlost true _
    | closed _ =>
      rw [List.take_left]
      exact hlost false _
    | @byte c r hno =>
      by_cases hc : c = 60
      · refine .lost (y := y ++ body) (z := z ++ [c]) ?_ (hblock []).ends hlt (by simp [hc])
        rw [hx, List.append_assoc]
        rfl
      · obtain ⟨hclean, hmark⟩ := behind_step h hc
        rw [streamByte, h.active, if_neg Bool.false_ne_true]
        by_cases hm : HasMarker (plain ++ z ++ [c])
        · exact .doomed (hmark hm)
        · refine @Stands.behind think n _ _ _ y body e (z ++ [c]) els thought plain ?_ (fun w => ?_) hlt ?_
          · rw [hx, List.append_assoc]
            rfl
          · rw [List.append_assoc]
            exact hblock w
          · rw [← List.append_assoc]
            exact hclean hm
  | lost hx he hlt hz =>
    exact .lost (by rw [hx, List.append_assoc]) he hlt (List.mem_append_left _ hz)
  | doomed h => exact .doomed (h.taken ht)

/-- Wherever the stream stands, it has read the text for what it says. -/
theorem stream_reads {think : Bool} {n : Nat} {x q : Bytes} (h : Stands think n x q s) (hn : n ≤ x.length) :
    ∃ w, q = w ++ (streamReader.run s q).2 ∧
      Stands think n (x ++ w) (streamReader.run s q).2 (streamReader.run s q).1 := by
  induction hl : q.length using Nat.strongRecOn generalizing s x q with
  | ind l ih =>
    cases htake : streamReader.take s q with
    | none =>
      rw [Reader.run_none htake]
      exact ⟨[], rfl, by rwa [List.append_nil]⟩
    | some c =>
      have hnext := h.taken hn (taken_iff.mp htake)
      rw [Reader.run_some htake]
      obtain ⟨w, hw, hstands⟩ := ih _ (hl ▸ Reader.drop_lt htake) hnext (by rw [List.length_append]; omega) rfl
      refine ⟨q.take c.2 ++ w, ?_, ?_⟩
      · rw [List.append_assoc, ← hw, List.take_append_drop]
      · rwa [← List.append_assoc]

/-! ## From the text to the stream -/

theorem thinkTag_length (o : Bool) : 7 ≤ (thinkTag o).length ∧ (thinkTag o).length ≤ 8 := by
  cases o <;> decide +kernel

/-- With enough text behind it, a byte is taken where no tag begins. -/
theorem byte_taken {t q : Bytes} {c : UInt8} (hno : NoTagIn (c :: t) q) (hq : 7 ≤ q.length) :
    streamReader.take s (c :: t ++ q) = some (streamByte s c, 1) := by
  refine taken_iff.mpr (.byte fun _ o => ⟨hno [] (c :: t) rfl (List.cons_ne_nil c t) o, fun _ => ?_⟩)
  refine Bool.eq_false_iff.mpr fun hp => ?_
  change partialPrefix (thinkTag o) (c :: (t ++ q)) = true at hp
  rw [partialPrefix, Bool.and_eq_true, decide_eq_true_iff, List.length_cons, List.length_append] at hp
  have hlen := thinkTag_length o
  omega

theorem NoTagIn.rest {t q : Bytes} {c : UInt8} (h : NoTagIn (c :: t) q) : NoTagIn t q := by
  intro u v huv hv
  exact h (c :: u) v (by rw [huv]; rfl) hv

/-- A tag that is complete is not begun in front of it by what follows. -/
theorem NoTagIn.more {t : Bytes} {o : Bool} (h : NoTagIn t (thinkTag o)) (q : Bytes) : NoTagIn t (thinkTag o ++ q) := by
  intro u v huv hv o'
  refine Bool.eq_false_iff.mpr fun hs => ?_
  rw [← List.append_assoc] at hs
  rcases startsWith_more_cases hs with hs' | hp
  · rw [h u v huv hv o'] at hs'
    cases hs'
  · rw [partialPrefix, Bool.and_eq_true, decide_eq_true_iff, List.length_append] at hp
    have hlen := thinkTag_length o
    have hlen' := thinkTag_length o'
    have hpos := List.length_pos_of_ne_nil hv
    omega

/-- A stretch of plain text without a start is read to its end. -/
theorem stretch_on {before total : Bytes} {m : Mode}
    (hclean : ∀ w, w <+: said m.gap total →
      (∀ a f i, (f, i) ∈ dsmlStartForms → said m.gap total = a ++ f → w <+: a) → ¬HasMarker (before ++ w))
    {q : Bytes} (hq : 7 ≤ q.length) (t : Bytes) : ∀ {t₀ noted : Bytes} {s : AgentStream}, Plainly thought before m t₀ noted s →
    t₀ ++ t <+: total → NoStart (said m.gap (t₀ ++ t)) → NoTagIn t q →
    ∃ noted' s', streamReader.run s (t ++ q) = streamReader.run s' q ∧ Plainly thought before m (t₀ ++ t) noted' s' := by
  induction t with
  | nil =>
    intro t₀ noted s h _ _ _
    exact ⟨noted, s, rfl, by rwa [List.append_nil]⟩
  | cons c t ih =>
    intro t₀ noted s h htotal hstart hno
    rw [Reader.run_some (byte_taken hno hq), streamByte, h.active, if_neg Bool.false_ne_true]
    have hstep := stretch_step h c
    generalize normalByte s c = s' at hstep
    cases hstep with
    | goes h' =>
      rw [show t₀ ++ c :: t = t₀ ++ [c] ++ t by simp] at htotal hstart ⊢
      exact ih h' htotal hstart hno.rest
    | @opens f i hf hsaid =>
      refine absurd ?_ (hstart _ hf)
      have hmono := said_mono m.gap (t₀ ++ [c]) t
      rw [hsaid, List.append_assoc, List.singleton_append] at hmono
      exact (List.suffix_append noted f).isInfix.trans hmono.isInfix
    | doomed hm hpre hbefore _ =>
      obtain ⟨r, rfl⟩ := htotal
      rw [List.append_assoc, List.cons_append] at hclean
      exact absurd hm (hclean _ (hpre _) fun a f i hf => hbefore a f i _ hf)

/-- Thinking without a marker is read to its end. -/
theorem thinks_on {before q : Bytes} (hq : 7 ≤ q.length) (t : Bytes) : ∀ {seen : Bytes} {s : AgentStream},
    Thinks seen before s → ¬HasMarker (seen ++ t) → NoTagIn t q →
    ∃ s', streamReader.run s (t ++ q) = streamReader.run s' q ∧ Thinks (seen ++ t) before s' := by
  induction t with
  | nil =>
    intro seen s h _ _
    exact ⟨s, rfl, by rwa [List.append_nil]⟩
  | cons c t ih =>
    intro seen s h hm hno
    rw [show seen ++ c :: t = seen ++ [c] ++ t by simp] at hm ⊢
    have hnext := (thinks_step h c).1 fun hm' => hm (hm'.mono (List.prefix_append _ t).isInfix)
    rw [Reader.run_some (byte_taken hno hq), streamByte, h.active, if_neg Bool.false_ne_true]
    exact ih hnext hm hno.rest

/-- The stream of a turn, before the first token. -/
def startStream (think : Bool) : AgentStream := { inThink := think }

/-- Where a stretch begins. -/
def Begins (m : Mode) (thought before : Bytes) (s : AgentStream) : Prop :=
  (m.think = false → Plainly thought before m [] [] s) ∧ (m.think = true → Thinks thought before s)

theorem start_begins (think : Bool) : Begins ⟨think, false⟩ [] [] (startStream think) := by
  have hout : Outside {} [] [] (startStream think) :=
    ⟨rfl, by decide, rfl, rfl, ⟨List.suffix_refl _, .inl rfl⟩, ⟨List.suffix_refl _, .inl rfl⟩, marked_nil, marked_nil⟩
  cases think with
  | true => exact ⟨fun h => (by cases h), fun _ => thinks_begins hout rfl rfl rfl⟩
  | false => exact ⟨fun _ => plainly_begins hout rfl rfl, fun h => by cases h⟩

theorem tag_taken (o : Bool) (q : Bytes) (hact : s.dsmlActive = false) :
    streamReader.run s (thinkTag o ++ q) = streamReader.run (tagged o s) q := by
  have htake : streamReader.take s (thinkTag o ++ q) = some (tagged o s, (thinkTag o).length) := by
    cases o with
    | true => exact taken_iff.mpr (.opened hact)
    | false => exact taken_iff.mpr (.closed hact)
  rw [Reader.run_some htake, List.drop_left]

theorem tag_begins {o : Bool} (h : Outside {} thought plain (flushStartTail s)) (htail : (flushStartTail s).dsmlStartTail = []) :
    Begins ⟨o, !o⟩ thought plain (tagged o s) := by
  cases o with
  | true => exact ⟨fun h => (by cases h), fun _ => tag_opened h htail⟩
  | false => exact ⟨fun _ => tag_closed h htail, fun h => by cases h⟩

/-- Text up to a tag is read for what it says. -/
theorem reading_on {think : Bool} {text thought before : Bytes} {m : Mode} (h : Reading think text m thought before)
    (hthought : ¬HasMarker thought) (hbefore : ¬HasMarker before) (q : Bytes) :
    ∃ s, streamReader.run (startStream think) (text ++ q) = streamReader.run s q ∧ Begins m thought before s := by
  induction h generalizing q with
  | start => exact ⟨_, rfl, start_begins think⟩
  | @tag text t thought before m o hread hno hstart ih =>
    have hq : 7 ≤ (thinkTag o ++ q).length := by
      rw [List.length_append]
      have := thinkTag_length o
      omega
    obtain ⟨s, hrun, hplain, hthink⟩ := ih (fun hm => hthought (hm.mono (List.prefix_append _ _).isInfix))
      (fun hm => hbefore (hm.mono (List.prefix_append _ _).isInfix)) (t ++ (thinkTag o ++ q))
    rw [List.append_assoc, List.append_assoc, hrun]
    cases hm : m.think with
    | true =>
      rw [hm, if_pos rfl] at hthought
      obtain ⟨s', hrun', h'⟩ := thinks_on hq t (hthink hm) hthought (hno.more q)
      obtain ⟨hout, htail⟩ := h'.flushed
      rw [hrun', tag_taken o q h'.active]
      refine ⟨_, rfl, ?_⟩
      rw [if_pos rfl, if_pos rfl, List.append_nil]
      exact tag_begins hout htail
    | false =>
      rw [hm, if_neg Bool.false_ne_true] at hbefore
      obtain ⟨noted, s', hrun', h'⟩ := @stretch_on thought before t m
        (fun w hw _ hmw => hbefore (hmw.mono (List.prefix_append_right_inj before |>.mpr hw).isInfix)) _ hq t _ _ _ (hplain hm)
        (List.prefix_refl _) (hstart hm) (hno.more q)
      obtain ⟨hout, htail⟩ := h'.flushed.1 hbefore
      rw [hrun', tag_taken o q h'.active]
      refine ⟨_, rfl, ?_⟩
      rw [if_neg Bool.false_ne_true, if_neg Bool.false_ne_true, List.append_nil]
      exact tag_begins hout htail

/-- The first start outside of the thinking opens the block. -/
theorem opening_on {think : Bool} {x q : Bytes} {i : Bool} (h : Opens think x q i thought plain) (hthought : ¬HasMarker thought)
    (hplain : ¬HasMarker plain) (hq : 7 ≤ q.length) :
    ∃ s, streamReader.run (startStream think) (x ++ q) = streamReader.run s q ∧ InBlock thought plain (blockHead i) s := by
  obtain ⟨text, t, m, before, f, rfl, hread, hm, hno, hf, a, hsaid, rfl, hfirst⟩ := h.split
  obtain ⟨s, hrun, hbegins, -⟩ := reading_on hread hthought (fun hmb => hplain (hmb.mono (List.prefix_append _ _).isInfix))
    (t ++ q)
  have hne : t ≠ [] := by
    rintro rfl
    obtain ⟨k, rfl, -⟩ := start_cons hf
    have hnil : said m.gap [] = [] := by cases m.gap <;> rfl
    rw [hnil] at hsaid
    simp at hsaid
  obtain ⟨t₁, c, rfl⟩ := (List.eq_nil_or_concat t).resolve_left hne
  rw [List.concat_eq_append] at *
  have hclean : ∀ w, w <+: said m.gap (t₁ ++ [c]) →
      (∀ a f i, (f, i) ∈ dsmlStartForms → said m.gap (t₁ ++ [c]) = a ++ f → w <+: a) → ¬HasMarker (before ++ w) :=
    fun w _ hw hmw => hplain (hmw.mono ((List.prefix_append_right_inj before).mpr (hw a f i hf hsaid)).isInfix)
  have hno₁ : NoTagIn t₁ (c :: q) := by
    intro u v huv hv o
    have := hno u (v ++ [c]) (by rw [huv, List.append_assoc]) (by simp) o
    rwa [List.append_assoc] at this
  obtain ⟨noted, s₁, hrun₁, h₁⟩ := stretch_on hclean (q := c :: q) (by simp; omega) t₁ (hbegins hm) (List.prefix_append _ _)
    (hfirst t₁ (List.prefix_append _ _) (by simp)) hno₁
  have hlast : NoTagIn [c] q := by
    intro u v huv hv o
    exact hno (t₁ ++ u) v (by rw [huv, List.append_assoc]) hv o
  rw [List.append_assoc, hrun, List.append_assoc, List.singleton_append, hrun₁,
    ← List.nil_append q, ← List.cons_append, Reader.run_some (byte_taken hlast hq), streamByte, h₁.active, if_neg Bool.false_ne_true]
  have hstep := stretch_step h₁ c
  generalize normalByte s₁ c = s' at hstep
  cases hstep with
  | goes h' =>
    have hfresh := h'.fresh _ hf
    rw [← h'.said_eq, List.nil_append, hsaid] at hfresh
    exact absurd (List.suffix_append a f).isInfix hfresh
  | @opens g j hg hsaid' =>
    rw [List.nil_append, hsaid] at hsaid'
    obtain ⟨rfl, -, rfl⟩ := start_unique hf hg hsaid'
    exact ⟨_, rfl, opened_block h₁.toOutside h₁.inThink i⟩
  | doomed hmw hpre hbefore _ =>
    refine absurd hmw (hclean _ ?_ fun a f i hf h => hbefore a f i [] hf h)
    exact hpre []

/-- A block is read to its end. -/
theorem block_ends {els : List DsmlElement} {body e : Bytes} (hspells : Spells els body) (he : ClosingTag (utf8 "tool_calls") e)
    (q : Bytes) (t : Bytes) : ∀ {b : Bytes} {s : AgentStream}, InBlock thought plain b s → t ≠ [] → b ++ t = body ++ e →
    ∃ s', streamReader.run s (t ++ q) = streamReader.run s' q ∧ Behind thought plain (callsOf els) s' := by
  induction t with
  | nil => exact fun _ hne _ => absurd rfl hne
  | cons c t ih =>
    intro b s h _ hb
    have htake : streamReader.take s (c :: t ++ q) = some (streamByte s c, 1) :=
      taken_iff.mpr (.byte fun hact => by
        rw [h.active] at hact
        cases hact)
    obtain ⟨hlive, hdone, -⟩ := block_step h c
    rw [Reader.run_some htake, streamByte, h.active, if_pos rfl]
    cases t with
    | nil =>
      obtain ⟨p, hread, hstate, hcalls⟩ := block_read hspells he [] started_between
      rw [List.append_nil, ← hb] at hread
      obtain ⟨els', body', e', hb', hspells', he', h'⟩ := hdone (by rw [hread]; exact hstate)
      obtain ⟨p', hread', -, hcalls'⟩ := block_read hspells' he' [] started_between
      rw [List.append_nil, ← hb', hread] at hread'
      obtain rfl := (Prod.mk.inj hread').1
      have hsame : callsOf els' = callsOf els := hcalls'.symm.trans hcalls
      exact ⟨_, rfl, hsame ▸ h'⟩
    | cons d t =>
      have hnext : b ++ [c] ++ d :: t = body ++ e := by rw [← hb]; simp
      exact ih (hlive (ends_last hspells he hnext.symm (List.cons_ne_nil d t))) (List.cons_ne_nil d t) hnext

/-- Text behind a block without a `<` and a marker is read to its end. -/
theorem behind_on {calls : List AgentDsmlCall} (y : Bytes) : ∀ {plain : Bytes} {s : AgentStream}, Behind thought plain calls s →
    60 ∉ y → ¬HasMarker (plain ++ y) →
    ∃ s', streamReader.run s y = (s', []) ∧ Behind thought (plain ++ y) calls s' := by
  induction y with
  | nil =>
    intro plain s h _ _
    exact ⟨s, rfl, by rwa [List.append_nil]⟩
  | cons c y ih =>
    intro plain s h hy hm
    have hc : c ≠ 60 := by
      rintro rfl
      simp at hy
    have htake : streamReader.take s (c :: y) = some (streamByte s c, 1) := by
      refine taken_iff.mpr (.byte fun _ o => ⟨?_, fun _ => Bool.eq_false_iff.mpr fun hp => hc (partialPrefix_head hp)⟩)
      obtain ⟨k, hk, -⟩ := thinkTag_eq o
      rw [startsWith, hk, Bool.eq_false_iff, ne_eq, List.isPrefixOf_iff_prefix, List.cons_prefix_cons]
      exact fun hs => hc hs.1.symm
    rw [show plain ++ c :: y = plain ++ [c] ++ y by simp] at hm ⊢
    have hnext := (behind_step h hc).1 fun hm' => hm (hm'.mono (List.prefix_append _ y).isInfix)
    rw [Reader.run_some htake, streamByte, h.active, if_neg Bool.false_ne_true]
    exact ih hnext (fun hy' => hy (List.mem_cons_of_mem c hy')) hm

theorem closing_length {e : Bytes} (he : ClosingTag (utf8 "tool_calls") e) : 7 ≤ e.length := by
  obtain ⟨w, bar, w', rfl, -⟩ := he
  have hlen : 7 ≤ (closeTagHead (utf8 "tool_calls")).length := by decide +kernel
  simp only [List.length_append]
  omega

/-- A text that makes calls brings the stream behind their block. -/
theorem stream_calls {think : Bool} {x body e y : Bytes} {els : List DsmlElement} (h : Block think x body e y els thought plain)
    (hthought : ¬HasMarker thought) (hplain : ¬HasMarker (plain ++ y)) (hy : 60 ∉ y) :
    ∃ s, streamReader.run (startStream think) (x ++ body ++ e ++ y) = (s, []) ∧
      Behind thought (plain ++ y) (callsOf els) s := by
  obtain ⟨⟨i, hopens, hspells⟩, he⟩ := h
  have hlen := closing_length he
  obtain ⟨s, hrun, hblock⟩ := opening_on hopens hthought (fun hm => hplain (hm.mono (List.prefix_append _ y).isInfix))
    (by rw [List.length_append, List.length_append]; omega)
  have hne : body ++ e ≠ [] := by
    intro hnil
    rw [(List.append_eq_nil_iff.mp hnil).2] at hlen
    simp at hlen
  obtain ⟨s', hrun', hbehind⟩ := block_ends hspells he y (body ++ e) hblock hne (by rw [List.append_assoc])
  obtain ⟨s'', hrun'', hend⟩ := behind_on y hbehind hy hplain
  exact ⟨s'', by rw [List.append_assoc x, List.append_assoc x, hrun, hrun', hrun''], hend⟩

/-! ## The loop -/

/-- The stream and what waits after batches. -/
def reach (think : Bool) (bs : List DecodedBatch) : AgentStream × Bytes :=
  streamReader.run (startStream think) (textOf bs)

theorem textOf_append (a b : List DecodedBatch) : textOf (a ++ b) = textOf a ++ textOf b := List.flatMap_append

theorem reach_append (think : Bool) (a b : List DecodedBatch) :
    reach think (a ++ b) = streamReader.run (reach think a).1 ((reach think a).2 ++ textOf b) := by
  rw [reach, textOf_append, Reader.run_append]
  rfl

theorem reach_waits (think : Bool) (bs : List DecodedBatch) :
    streamReader.take (reach think bs).1 (reach think bs).2 = none := Reader.take_run _ _

theorem reach_next (think : Bool) (bs : List DecodedBatch) (b : DecodedBatch) :
    b.tokens.foldl (streamText false) (reach think bs) = reach think (bs ++ [b]) := by
  rw [streamed_pieces _ (reach_waits think bs), reach_append]
  simp [textOf, DecodedBatch.text]

/-- What ends the loop. -/
def Closed (s : AgentStream) : Prop := s.parser.state = .done ∨ s.parser.state = .error ∨ s.dsmlInThink = true

/-- The loop ends with calls at the first batch whose text ends a block, when no text
    before it ended one and no batch up to it stopped. -/
theorem loop_got {think : Bool} {c : AgentStream × Bytes} (bs : List DecodedBatch) : ∀ pre : List DecodedBatch,
    turnLoop (reach think pre) bs = (c, .gotTool) ↔
      ∃ mid b post, bs = mid ++ b :: post ∧ (∀ d ∈ mid ++ [b], d.stopped = false) ∧
        (∀ u d v, mid = u ++ d :: v → d.editFailed = false ∧ ¬Closed (reach think (pre ++ u ++ [d])).1) ∧
        c = reach think (pre ++ mid ++ [b]) ∧ c.1.parser.state = .done := by
  induction bs with
  | nil =>
    intro pre
    constructor
    · intro h
      cases h
    · rintro ⟨mid, b, post, h, -⟩
      simp at h
  | cons d bs ih =>
    intro pre
    rw [turnLoop, reach_next]
    -- either the loop ends at this batch or it goes on
    have hcons : ∀ {mid : List DecodedBatch} {b : DecodedBatch} {post : List DecodedBatch}, d :: bs = mid ++ b :: post →
        (mid = [] ∧ d = b) ∨ ∃ w, mid = d :: w ∧ bs = w ++ b :: post := by
      intro mid b post h
      cases mid with
      | nil => exact .inl ⟨rfl, (List.cons.inj h).1⟩
      | cons x w =>
        obtain ⟨rfl, hw⟩ := List.cons.inj h
        exact .inr ⟨w, rfl, hw⟩
    by_cases hstop : d.stopped = true
    · rw [if_pos hstop]
      constructor
      · intro h
        cases h
      · rintro ⟨mid, b, post, h, hlive, -⟩
        have hd := hlive d (by
          rcases hcons h with ⟨rfl, rfl⟩ | ⟨w, rfl, -⟩ <;> simp)
        rw [hd] at hstop
        cases hstop
    · rw [if_neg hstop]
      rw [Bool.not_eq_true] at hstop
      by_cases hdone : (reach think (pre ++ [d])).1.parser.state = .done
      · rw [if_pos hdone]
        constructor
        · intro h
          obtain ⟨rfl, -⟩ := Prod.mk.inj h
          exact ⟨[], d, bs, rfl, by simpa using hstop, by simp, by simp, hdone⟩
        · rintro ⟨mid, b, post, h, -, hopen, rfl, -⟩
          rcases hcons h with ⟨rfl, rfl⟩ | ⟨w, rfl, -⟩
          · simp
          · exact absurd (.inl (by simpa using hdone)) (hopen [] d w rfl).2
      · rw [if_neg hdone]
        by_cases hbad : d.editFailed = true ∨ Closed (reach think (pre ++ [d])).1
        · constructor
          · intro h
            split at h
            · cases h
            · next hedit =>
              rcases hbad.resolve_left hedit with hd | herr | hin
              · exact absurd hd hdone
              · rw [if_pos herr] at h
                cases h
              · rw [if_pos hin, ite_self] at h
                cases h
          · rintro ⟨mid, b, post, h, -, hopen, rfl, hend⟩
            rcases hcons h with ⟨rfl, rfl⟩ | ⟨w, rfl, -⟩
            · exact absurd (by simpa using hend) hdone
            · obtain ⟨hedit, hclosed⟩ := hopen [] d w rfl
              rw [hedit] at hbad
              exact absurd (by simpa using hbad) hclosed
        · obtain ⟨hedit, hopen⟩ := not_or.mp hbad
          rw [if_neg hedit, if_neg fun herr => hopen (.inr (.inl herr)), if_neg fun hin => hopen (.inr (.inr hin)), ih (pre ++ [d])]
          rw [Bool.not_eq_true] at hedit
          constructor
          · rintro ⟨mid, b, post, rfl, hlive, hmid, rfl, hend⟩
            refine ⟨d :: mid, b, post, rfl, ?_, ?_, by simp, hend⟩
            · intro x hx
              rcases List.mem_cons.mp hx with rfl | hx
              · exact hstop
              · exact hlive x hx
            · intro u x v hu
              cases u with
              | nil =>
                obtain ⟨rfl, -⟩ := List.cons.inj hu
                rw [List.append_nil]
                exact ⟨hedit, hopen⟩
              | cons y u =>
                obtain ⟨rfl, hv⟩ := List.cons.inj hu
                have hx := hmid u x v hv
                rwa [List.append_assoc pre, List.singleton_append] at hx
          · rintro ⟨mid, b, post, h, hlive, hmid, rfl, hend⟩
            rcases hcons h with ⟨rfl, rfl⟩ | ⟨w, rfl, rfl⟩
            · exact absurd (by simpa using hend) hdone
            · refine ⟨w, b, post, rfl, fun x hx => hlive x (List.mem_cons_of_mem d hx), ?_, by simp, by simpa using hend⟩
              rintro u x v rfl
              have hx := hmid (d :: u) x v rfl
              rwa [List.append_assoc pre, List.singleton_append]

/-! ## The turn and the text -/

/-- What waits is the beginning of a tag. -/
theorem waits_begin {q : Bytes} (h : streamReader.take s q = none) : (q ≠ [] → 60 ∈ q) ∧ 62 ∉ q := by
  cases q with
  | nil => exact ⟨fun hne => absurd rfl hne, List.not_mem_nil⟩
  | cons c r =>
    change streamTake false s (c :: r) = none at h
    rw [streamTake] at h
    split at h
    · cases h
    · split at h
      · cases h
      · split at h
        · next hpart =>
          simp only [Bool.and_eq_true, Bool.or_eq_true, beq_iff_eq] at hpart
          refine ⟨fun _ => by simp [hpart.1.2], fun hmem => ?_⟩
          have hlast : ∀ o, ∃ k, thinkTag o = k ++ [62] ∧ 62 ∉ k := fun o =>
            ⟨(thinkTag o).dropLast, by cases o <;> decide +kernel, by cases o <;> decide +kernel⟩
          obtain ⟨o, ho⟩ : ∃ o, partialPrefix (thinkTag o) (c :: r) = true :=
            hpart.2.elim (fun h => ⟨true, h⟩) fun h => ⟨false, h⟩
          obtain ⟨k, hk, hno⟩ := hlast o
          rw [partialPrefix, Bool.and_eq_true, decide_eq_true_iff, List.isPrefixOf_iff_prefix, hk] at ho
          rcases List.prefix_concat_iff.mp ho.2 with heq | hpre
          · rw [heq] at ho
            exact absurd ho.1 (Nat.lt_irrefl _)
          · exact hno (hpre.subset hmem)
        · cases h

/-- A tag that ends behind `x` ends behind what waits too. -/
theorem closes_later {x r w u e z : Bytes} (h : u ++ e ++ z = x ++ r ++ w) (he : ClosingTag (utf8 "tool_calls") e)
    (hlt : x.length < (u ++ e).length) (hr : 62 ∉ r) : (x ++ r).length < (u ++ e).length := by
  obtain ⟨k, rfl⟩ : ∃ k, e = k ++ [62] := by
    obtain ⟨a, bar, b, rfl, -⟩ := he
    exact ⟨_, rfl⟩
  refine Nat.lt_of_not_le fun hle => hr ?_
  rw [← List.append_assoc] at h hlt hle
  rw [List.length_append, List.length_singleton] at hlt hle
  rw [@List.length_append _ x r] at hle
  have hget : (u ++ k ++ [62] ++ z)[(u ++ k).length]? = some 62 := by
    rw [List.append_assoc, List.getElem?_append_right (Nat.le_refl _), Nat.sub_self]
    rfl
  rw [h, List.append_assoc x, List.getElem?_append_right (by omega), List.getElem?_append_left (by omega)] at hget
  exact List.mem_of_getElem? hget

theorem Open.more {think : Bool} {x r : Bytes} (h : Open think x r s) (w : Bytes) : Open think x (r ++ w) s := by
  cases h with
  | plain hx hread hm hno h => exact .plain hx hread hm (fun z => by rw [List.append_assoc]; exact hno (w ++ z)) h
  | thinks hx hread hm hno h => exact .thinks hx hread hm (fun z => by rw [List.append_assoc]; exact hno (w ++ z)) h
  | block hx hopens h => exact .block hx (fun z => by rw [List.append_assoc r]; exact hopens (w ++ z)) h

theorem Open.not_closed {think : Bool} {x r : Bytes} (h : Open think x r s) : ¬Closed s := by
  rintro (hd | he | hi)
  · cases h with
    | plain _ _ _ _ h =>
      rw [h.parser] at hd
      cases hd
    | thinks _ _ _ _ h =>
      rw [h.parser] at hd
      cases hd
    | block _ _ h => exact h.live (.inl hd)
  · cases h with
    | plain _ _ _ _ h =>
      rw [h.parser] at he
      cases he
    | thinks _ _ _ _ h =>
      rw [h.parser] at he
      cases he
    | block _ _ h => exact h.live (.inr he)
  · cases h with
    | plain _ _ _ _ h =>
      rw [h.dsmlInThink] at hi
      cases hi
    | thinks _ _ _ _ h =>
      rw [h.dsmlInThink] at hi
      cases hi
    | block _ _ h =>
      rw [h.dsmlInThink] at hi
      cases hi

theorem Doomed.run (h : Doomed s) (q : Bytes) : Doomed (streamReader.run s q).1 := by
  induction hl : q.length using Nat.strongRecOn generalizing s q with
  | ind l ih =>
    cases htake : streamReader.take s q with
    | none =>
      rw [Reader.run_none htake]
      exact h
    | some c =>
      rw [Reader.run_some htake]
      exact ih _ (hl ▸ Reader.drop_lt htake) (h.taken (taken_iff.mp htake)) _ rfl

/-- After these batches a block is not over. -/
def OpenAfter (think : Bool) (bs : List DecodedBatch) : Prop :=
  ∃ x, textOf bs = x ++ (reach think bs).2 ∧ Open think x (reach think bs).2 (reach think bs).1

theorem open_start (think : Bool) : OpenAfter think [] := by
  refine ⟨[], rfl, ?_⟩
  change Open think [] [] (startStream think)
  obtain ⟨hplain, hthink⟩ := start_begins think
  cases think with
  | true => exact .thinks rfl .start rfl (fun z => .nil _) (hthink rfl)
  | false => exact .plain rfl .start rfl (fun z => .nil _) (hplain rfl)

/-- One batch more: a block is still not over, the text makes calls, or there will be none. -/
theorem batch_reads {think : Bool} {bs : List DecodedBatch} (h : OpenAfter think bs) (b : DecodedBatch)
    (hends : ∀ u e y, textOf (bs ++ [b]) = u ++ e ++ y → ClosingTag (utf8 "tool_calls") e →
      (textOf bs).length < (u ++ e).length → 60 ∉ y) :
    OpenAfter think (bs ++ [b]) ∨ Doomed (reach think (bs ++ [b])).1 ∨
      ∃ calls thought plain, Called think (textOf (bs ++ [b])) calls ∧ (reach think (bs ++ [b])).2 = [] ∧
        Behind thought plain calls (reach think (bs ++ [b])).1 := by
  obtain ⟨x, hx, hopen⟩ := h
  have hwait := (waits_begin (reach_waits think bs)).2
  obtain ⟨w, hw, hstands⟩ := stream_reads (.opened (hopen.more (textOf [b]))) (Nat.le_refl x.length)
  rw [← reach_append] at hw hstands
  have hend := waits_begin (reach_waits think (bs ++ [b]))
  have htext : textOf (bs ++ [b]) = x ++ w ++ (reach think (bs ++ [b])).2 := by
    rw [textOf_append, hx, List.append_assoc, hw, List.append_assoc]
  obtain ⟨c, hc⟩ : ∃ c, reach think (bs ++ [b]) = c := ⟨_, rfl⟩
  rw [OpenAfter, hc]
  rw [hc] at hw hstands hend htext
  have hcut : x ++ w ++ c.2 = x ++ (reach think bs).2 ++ textOf [b] := by
    rw [List.append_assoc, List.append_assoc, hw]
  cases hstands with
  | opened h => exact .inl ⟨x ++ w, htext, h⟩
  | @behind y body e z els thought plain hy hblock hlt h =>
    have htext' : textOf (bs ++ [b]) = y ++ body ++ e ++ (z ++ c.2) := by rw [htext, hy, List.append_assoc]
    have hno : 60 ∉ z ++ c.2 := by
      refine hends _ e _ htext' (hblock []).ends ?_
      rw [hx]
      exact closes_later (by rw [← htext', htext, hcut]) (hblock []).ends hlt hwait
    have hnil : c.2 = [] := by
      by_contra hne
      exact hno (List.mem_append_right _ (hend.1 hne))
    rw [hnil, List.append_nil] at htext'
    have hcalled := hblock []
    rw [hnil, List.append_nil, List.append_nil] at hcalled
    exact .inr (.inr ⟨_, _, _, ⟨y, body, e, z, els, thought, plain, htext', hcalled, h.thinkClean, h.plainClean, rfl⟩, hnil, h⟩)
  | @lost y e z hy he hlt hz =>
    have htext' : textOf (bs ++ [b]) = y ++ e ++ (z ++ c.2) := by rw [htext, hy, List.append_assoc]
    refine absurd (List.mem_append_left c.2 hz) (hends _ e _ htext' he ?_)
    rw [hx]
    exact closes_later (by rw [← htext', htext, hcut]) he hlt hwait
  | doomed h => exact .inr (.inl h)

/-- The end of the turn changes nothing behind a block. -/
theorem behind_finished {calls : List AgentDsmlCall} (h : Behind thought plain calls s) :
    (finishStream s).dsmlInThink = false ∧ (finishStream s).parser = s.parser := by
  rw [finishStream, flushStartTail, if_pos h.held]
  simp [h.active, h.dsmlInThink]

/-- What the turn makes of the end of its loop. -/
theorem turn_calls {think interrupted : Bool} {batches : List DecodedBatch} {calls : List AgentDsmlCall} :
    workerTurn think interrupted batches = .calls calls ↔
      interrupted = false ∧ ∃ c s, turnLoop (startStream think, []) batches = (c, .gotTool) ∧ finishStream (finishLoop c.1 c.2) = s ∧
        s.dsmlInThink = false ∧ s.parser.state ≠ .error ∧ s.parser.calls = calls := by
  rw [workerTurn, ← startStream]
  obtain ⟨c, how⟩ := turnLoop (startStream think, []) batches
  dsimp only
  rw [streamText_finish, List.append_nil]
  constructor
  · intro h
    split at h
    · cases h
    · next hint =>
      refine ⟨Bool.not_eq_true _ ▸ hint, ?_⟩
      split at h
      · cases h
      · next hin =>
        split at h
        · cases h
        · split at h
          · cases h
          · next hbad =>
            obtain ⟨-, herr⟩ := not_or.mp hbad
            split at h
            · next hgot => exact ⟨c, _, by rw [hgot], rfl, Bool.not_eq_true _ ▸ hin, herr, TurnEnd.calls.inj h⟩
            · split at h
              · cases h
              · cases h
  · rintro ⟨rfl, c', s, h, rfl, hin, herr, rfl⟩
    obtain ⟨rfl, rfl⟩ := Prod.mk.inj h
    rw [if_neg Bool.false_ne_true, if_neg (by rw [hin]; exact Bool.false_ne_true), if_neg (by decide),
      if_neg (not_or.mpr ⟨by decide, herr⟩), if_pos rfl]

theorem Doomed.closed (h : Doomed s) : Closed s := h.elim (fun h => .inr (.inr h)) fun h => .inr (.inl h.1)

theorem EndsBatch.front {a b : List DecodedBatch} (h : EndsBatch (a ++ b)) : EndsBatch a := by
  rintro pre d post rfl
  exact h pre d (post ++ b) (by simp)

/-- These batches make calls, and no fewer of them do. -/
def FirstCalled (think : Bool) (bs : List DecodedBatch) (calls : List AgentDsmlCall) : Prop :=
  Called think (textOf bs) calls ∧ ∀ u v, bs = u ++ v → v ≠ [] → ∀ calls', ¬Called think (textOf u) calls'

theorem called_front {think : Bool} {a w x body e y : Bytes} {els : List DsmlElement}
    (htext : a ++ w = x ++ body ++ e ++ y) (hblock : Block think x body e y els thought plain) (hthought : ¬HasMarker thought)
    (hplain : ¬HasMarker (plain ++ y)) (hle : (x ++ body ++ e).length ≤ a.length) : Called think a (callsOf els) := by
  obtain ⟨y₁, hy₁⟩ := List.prefix_of_prefix_length_le ⟨y, htext.symm⟩ (List.prefix_append a w) hle
  rw [← hy₁, List.append_assoc (x ++ body ++ e)] at htext
  obtain rfl := List.append_cancel_left htext
  refine ⟨x, body, e, y₁, els, thought, plain, hy₁.symm, hblock.front, hthought, fun hm => hplain (hm.mono ?_), rfl⟩
  rw [← List.append_assoc]
  exact (List.prefix_append _ w).isInfix

/-- The first batches that make calls bring the stream behind the block. -/
theorem first_behind {think : Bool} {bs : List DecodedBatch} {calls : List AgentDsmlCall} (h : FirstCalled think bs calls)
    (hends : EndsBatch bs) : bs ≠ [] ∧ (reach think bs).2 = [] ∧ ∃ thought plain, Behind thought plain calls (reach think bs).1 := by
  obtain ⟨⟨x, body, e, y, els, thought, plain, htext, hblock, hthought, hplain, rfl⟩, hfirst⟩ := h
  have hlen := closing_length hblock.ends
  have hne : bs ≠ [] := by
    rintro rfl
    have hzero := congrArg List.length htext
    simp [textOf] at hzero
    omega
  obtain ⟨mid, b, rfl⟩ := (List.eq_nil_or_concat bs).resolve_left hne
  rw [List.concat_eq_append] at *
  have hy : 60 ∉ y := by
    refine hends mid b [] rfl (x ++ body) e y htext hblock.ends (Nat.lt_of_not_le fun hle => ?_)
    rw [textOf_append] at htext
    exact hfirst mid [b] rfl (List.cons_ne_nil b []) _ (called_front htext hblock hthought hplain hle)
  obtain ⟨s, hrun, h⟩ := stream_calls hblock hthought hplain hy
  rw [reach, htext, hrun]
  exact ⟨hne, rfl, _, _, h⟩

/-- As long as nothing else comes of the batches, a block is not over. -/
theorem open_along {think : Bool} {bs : List DecodedBatch} (hends : EndsBatch bs)
    (hno : ∀ u v, bs = u ++ v → u ≠ [] → ¬Doomed (reach think u).1 ∧
      ∀ calls thought plain, Called think (textOf u) calls → ¬Behind thought plain calls (reach think u).1) :
    ∀ u v, bs = u ++ v → OpenAfter think u := by
  intro u
  induction u using List.reverseRecOn with
  | nil => exact fun _ _ => open_start think
  | append_singleton u b ih =>
    intro v hv
    have hu : bs = u ++ b :: v := by rw [hv]; simp
    obtain ⟨hdoom, hcalled⟩ := hno _ v hv (by simp)
    rcases batch_reads (ih (b :: v) hu) b (hends u b v hu) with h | h | ⟨calls, thought, plain, h, -, hbehind⟩
    · exact h
    · exact absurd h hdoom
    · exact absurd hbehind (hcalled calls thought plain h)

theorem OpenAfter.not_closed {think : Bool} {bs : List DecodedBatch} (h : OpenAfter think bs) :
    ¬Closed (reach think bs).1 := by
  obtain ⟨x, -, h⟩ := h
  exact h.not_closed

/-- **A turn executes the calls that its text makes**, and no others. They are the calls of
    the first block outside of the thinking, and no marker stands in the thinking, in front
    of the block or behind it; the text is looked at behind each batch, and the first one
    that ends the block ends the turn. -/
theorem turn_calls_exact (think interrupted : Bool) {batches : List DecodedBatch} (h : EndsBatch batches)
    (calls : List AgentDsmlCall) :
    workerTurn think interrupted batches = .calls calls ↔
      interrupted = false ∧ ∃ mid b post, batches = mid ++ b :: post ∧ (∀ d ∈ mid ++ [b], d.stopped = false) ∧
        (∀ d ∈ mid, d.editFailed = false) ∧ FirstCalled think (mid ++ [b]) calls := by
  rw [turn_calls]
  refine and_congr_right fun _ => ?_
  constructor
  · rintro ⟨c, s, hloop, rfl, hin, herr, hcalls⟩
    obtain ⟨mid, b, post, rfl, hlive, hopen, rfl, hdone⟩ := (loop_got batches []).mp hloop
    rw [List.nil_append] at hin herr hcalls hdone
    have hends : EndsBatch (mid ++ [b]) := EndsBatch.front (b := post) (by simpa using h)
    have hend : ∀ u v, mid = u ++ v → OpenAfter think u := by
      refine open_along hends.front fun u v hv hu => ?_
      obtain ⟨w, d, rfl⟩ := (List.eq_nil_or_concat u).resolve_left hu
      rw [List.concat_eq_append] at *
      have hclosed := (hopen w d v (by rw [hv]; simp)).2
      rw [List.nil_append] at hclosed
      exact ⟨fun hd => hclosed hd.closed, fun _ _ _ _ hb => hclosed (.inl hb.done)⟩
    rcases batch_reads (hend mid [] (by simp)) b (hends mid b [] rfl) with ho | hd | ⟨calls', thought, plain, hcalled, hnil, hb⟩
    · exact absurd (.inl hdone) ho.not_closed
    · rcases hd.finished (reach think (mid ++ [b])).2 with hin' | ⟨herr', -⟩
      · rw [hin] at hin'
        cases hin'
      · exact absurd herr' herr
    · rw [hnil, finishLoop_nil, (behind_finished hb).2, hb.calls] at hcalls
      refine ⟨mid, b, post, rfl, hlive, fun d hd => ?_, hcalls ▸ hcalled, ?_⟩
      · obtain ⟨u, v, hv⟩ := List.append_of_mem hd
        exact (hopen u d v hv).1
      -- a shorter run that made calls would have ended the loop
      intro u
      induction hl : u.length using Nat.strongRecOn generalizing u with
      | ind l ih =>
        intro v hv hne calls'' hu
        obtain ⟨w, hw⟩ : ∃ w, mid = u ++ w := by
          obtain ⟨w, d, rfl⟩ := (List.eq_nil_or_concat v).resolve_left hne
          rw [List.concat_eq_append, ← List.append_assoc] at hv
          exact ⟨w, (List.append_inj' hv rfl).1⟩
        have hfirst : FirstCalled think u calls'' := by
          refine ⟨hu, fun u' v' hu' hne' => ?_⟩
          refine ih u'.length ?_ u' rfl (v' ++ v) (by rw [hv, hu', List.append_assoc]) (by simp [hne'])
          rw [← hl, hu', List.length_append]
          have := List.length_pos_of_ne_nil hne'
          omega
        rw [hw, List.append_assoc] at hends
        obtain ⟨-, -, thought', plain', hb'⟩ := first_behind hfirst hends.front
        exact (hend u w hw).not_closed (.inl hb'.done)
  · rintro ⟨mid, b, post, rfl, hlive, hedit, hfirst⟩
    have hends : EndsBatch (mid ++ [b]) := EndsBatch.front (b := post) (by simpa using h)
    obtain ⟨-, hnil, thought, plain, hb⟩ := first_behind hfirst hends
    have hend : ∀ u v, mid = u ++ v → OpenAfter think u := by
      refine open_along hends.front fun u v hv hu => ⟨fun hd => ?_, fun calls' thought' plain' hcalled _ => ?_⟩
      · -- what is doomed stays so
        have hlast := hd.run ((reach think u).2 ++ textOf (v ++ [b]))
        rw [← reach_append, ← List.append_assoc, ← hv] at hlast
        rcases hlast with hin | ⟨herr, -⟩
        · rw [hb.dsmlInThink] at hin
          cases hin
        · rw [hb.done] at herr
          cases herr
      · exact hfirst.2 u (v ++ [b]) (by rw [hv, List.append_assoc]) (by simp) calls' hcalled
    obtain ⟨hin, hparser⟩ := behind_finished hb
    refine ⟨reach think (mid ++ [b]), _, (loop_got _ []).mpr ⟨mid, b, post, rfl, hlive, ?_, rfl, hb.done⟩, rfl, ?_⟩
    · intro u d v hv
      refine ⟨hedit d (by simp [hv]), ?_⟩
      rw [List.nil_append]
      exact (hend (u ++ [d]) v (by rw [hv]; simp)).not_closed
    · rw [hnil, finishLoop_nil, hin, hparser]
      exact ⟨rfl, by rw [hb.done]; decide, hb.calls⟩

/-- It is enough that no token begins a tag behind a bracket. -/
theorem ends_of_tokens {bs : List DecodedBatch} (h : ∀ b ∈ bs, 60 ∉ b.text.dropWhile (· ≠ 62)) : EndsBatch bs := by
  rintro pre b post rfl u e y htext ⟨a, bar, a', rfl, -⟩ hlt hy
  generalize closeTagHead (utf8 "tool_calls") ++ a ++ bar ++ a' = k at htext hlt
  rw [textOf_append, show textOf [b] = b.text by simp [textOf], ← List.append_assoc u, List.append_assoc] at htext
  obtain ⟨p, hp⟩ : ∃ p, u ++ k = textOf pre ++ p := by
    rw [← List.append_assoc, List.length_append, List.length_singleton] at hlt
    obtain ⟨p, hp⟩ := List.prefix_of_prefix_length_le ⟨b.text, htext⟩ (List.prefix_append (u ++ k) _) (by omega)
    exact ⟨p, hp.symm⟩
  rw [hp, List.append_assoc] at htext
  have hb := List.append_cancel_left htext
  refine h b (by simp) ?_
  rw [hb, List.dropWhile_append]
  split
  · simpa using hy
  · exact List.mem_append_right _ (by simp [hy])

/-- Thinking, and a call of a tool without arguments. -/
def listTurn : List DecodedBatch :=
  ["look", "</think>", "\n\n", "<｜DSML｜", "tool_calls>", "\n<｜DSML｜invoke name=\"list\">", "\n</｜DSML｜invoke>", "\n</｜DSML｜",
    "tool_calls>", "\n"].map fun t => { tokens := [utf8 t] }

theorem list_turn_called : ∃ mid b post, listTurn = mid ++ b :: post ∧ (∀ d ∈ mid ++ [b], d.stopped = false) ∧
    (∀ d ∈ mid, d.editFailed = false) ∧ FirstCalled true (mid ++ [b]) [{ name := utf8 "list", args := [] }] :=
  ((turn_calls_exact true false (ends_of_tokens (by decide +kernel)) _).mp (by decide +kernel)).2

end Ds4.Agent
