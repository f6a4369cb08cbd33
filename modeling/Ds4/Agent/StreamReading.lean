import Ds4.Agent.StreamText

/- What the assistant's text says outside of a block of calls, and what the stream of
   ds4_agent.c makes of it byte by byte: thinking, plain text, the white space between
   them, the markers that do not belong there, and the start of a block.

   What is proved:
   1. `stretch_step`, `thinks_step` — what a byte makes of plain text and of thinking.
   2. `Plainly.flushed`, `tag_opened`, `tag_closed` — what a think tag makes of them.
   3. `Doomed.taken` — a stream that is bound to end without calls stays so. -/
namespace Ds4.Agent
open Ds4 Bytes Resume

/-! ## What a text says -/

/-- A marker stands in the text. -/
def HasMarker (t : Bytes) : Prop := ∃ m ∈ dsmlMarkers, m <:+: t

/-- No block starts in the text. -/
def NoStart (t : Bytes) : Prop := ∀ f ∈ dsmlStartForms, ¬f.1 <:+: t

/-- The text begins a start, or is one. -/
def heldStart (t : Bytes) : Bool := dsmlStartForms.any fun f => t.isPrefixOf f.1

/-- The text right behind the thinking: white space does not count as long as what else
    there is may be the beginning of a start. -/
def gapped (tail : Bytes) : Bytes → Bytes
  | [] => tail
  | c :: t =>
    if tagSpace c then gapped tail t
    else if heldStart (tail ++ [c]) then gapped (tail ++ [c]) t
    else tail ++ c :: t

def said (gap : Bool) (t : Bytes) : Bytes := if gap then gapped [] t else t

/-- No think tag begins in `t`, with `r` behind it. -/
def NoTagIn (t r : Bytes) : Prop := ∀ u v, t = u ++ v → v ≠ [] → ∀ o, startsWith (thinkTag o) (v ++ r) = false

/-- Whether a text is thinking, and whether it stands right behind the thinking. -/
structure Mode where
  think : Bool
  gap : Bool

/-- The text up to a think tag: its thinking, and the rest of it. -/
inductive Reading (think : Bool) : Bytes → Mode → Bytes → Bytes → Prop
  | start : Reading think [] ⟨think, false⟩ [] []
  | tag {text t thought plain : Bytes} {m : Mode} (o : Bool) : Reading think text m thought plain →
      NoTagIn t (thinkTag o) → (m.think = false → NoStart (said m.gap t)) →
      Reading think (text ++ t ++ thinkTag o) ⟨o, !o⟩ (thought ++ if m.think then t else [])
        (plain ++ if m.think then [] else said m.gap t)

/-- The text up to the first start of a block outside of the thinking; `r` follows. -/
structure Opens (think : Bool) (x r : Bytes) (opensCall : Bool) (thought plain : Bytes) : Prop where
  split : ∃ text t m before f, x = text ++ t ∧ Reading think text m thought before ∧ m.think = false ∧ NoTagIn t r ∧
    (f, opensCall) ∈ dsmlStartForms ∧ ∃ a, said m.gap t = a ++ f ∧ plain = before ++ a ∧
    ∀ t', t' <+: t → t' ≠ t → NoStart (said m.gap t')

/-- What the parser reads of a block whose start opens a call. -/
def blockHead (opensCall : Bool) : Bytes := if opensCall then canonicalInvoke else []

/-! ## Markers and starts -/

theorem HasMarker.mono {t t' : Bytes} (h : HasMarker t) (ht : t <:+: t') : HasMarker t' := by
  obtain ⟨m, hm, hin⟩ := h
  exact ⟨m, hm, hin.trans ht⟩

theorem marked_nil : ¬HasMarker [] := by
  rintro ⟨m, hm, hin⟩
  rw [List.infix_nil.mp hin] at hm
  exact absurd hm (by decide +kernel)

theorem marked_concat {t : Bytes} {c : UInt8} : HasMarker (t ++ [c]) ↔ HasMarker t ∨ ∃ m ∈ dsmlMarkers, m <:+ t ++ [c] := by
  constructor
  · rintro ⟨m, hm, hin⟩
    rcases List.infix_concat_iff.mp hin with hs | hi
    · exact .inr ⟨m, hm, hs⟩
    · exact .inl ⟨m, hm, hi⟩
  · rintro (h | ⟨m, hm, hs⟩)
    · exact h.mono (List.prefix_append t [c]).isInfix
    · exact ⟨m, hm, hs.isInfix⟩

theorem marker_short : ∀ m ∈ dsmlMarkers, m.length ≤ 32 := by decide +kernel

/-- A detector reports the first marker, at its last byte. -/
theorem detector_marks {seen tail : Bytes} (h : Tail 32 seen tail) (hno : ¬HasMarker seen) (c : UInt8) :
    Tail 32 (seen ++ [c]) (detectorFeed tail c).1 ∧ ((detectorFeed tail c).2 = true ↔ HasMarker (seen ++ [c])) := by
  have hpush := h.push (by decide) c
  refine ⟨hpush, ?_⟩
  rw [detectorFeed, marked_concat]
  simp only [hno, false_or, List.any_eq_true, List.isSuffixOf_iff_suffix]
  exact exists_congr fun m => and_congr_right fun hm => hpush.ends_iff (marker_short m hm)

theorem start_shape : ∀ f ∈ dsmlStartForms, f.1.head? = some 60 ∧ 60 ∉ f.1.tail ∧ f.1.length < 64 := by decide +kernel

theorem start_cons {f : Bytes} {i : Bool} (h : (f, i) ∈ dsmlStartForms) : ∃ k, f = 60 :: k ∧ 60 ∉ k := by
  obtain ⟨hhead, htail, -⟩ := start_shape _ h
  cases f with
  | nil => cases hhead
  | cons c k => exact ⟨k, by rw [Option.some.inj hhead], htail⟩

theorem start_marked : ∀ f ∈ dsmlStartForms, HasMarker f.1 := by
  have h : ∀ f ∈ dsmlStartForms, ∃ m ∈ dsmlMarkers, m.isPrefixOf f.1 = true ∨ m.isPrefixOf (f.1.drop 1) = true := by
    decide +kernel
  intro f hf
  obtain ⟨m, hm, hpre | hpre⟩ := h f hf
  · exact ⟨m, hm, (List.isPrefixOf_iff_prefix.mp hpre).isInfix⟩
  · exact ⟨m, hm, (List.isPrefixOf_iff_prefix.mp hpre).isInfix.trans (List.drop_suffix 1 f.1).isInfix⟩

theorem starts_apart : ∀ f ∈ dsmlStartForms, ∀ g ∈ dsmlStartForms, f.1.isPrefixOf g.1 = true → f = g := by
  decide +kernel

theorem heldStart_iff {t : Bytes} : heldStart t = true ↔ ∃ f ∈ dsmlStartForms, t <+: f.1 := by
  rw [heldStart, List.any_eq_true]
  exact exists_congr fun f => and_congr_right fun _ => List.isPrefixOf_iff_prefix

theorem heldStart_mono {t t' : Bytes} (h : heldStart t' = true) (ht : t <+: t') : heldStart t = true := by
  obtain ⟨f, hf, hpre⟩ := heldStart_iff.mp h
  exact heldStart_iff.mpr ⟨f, hf, ht.trans hpre⟩

theorem heldStart_head {c : UInt8} {t : Bytes} (h : heldStart (c :: t) = true) : c = 60 ∧ 60 ∉ t := by
  obtain ⟨⟨f, i⟩, hf, hpre⟩ := heldStart_iff.mp h
  obtain ⟨k, rfl, hk⟩ := start_cons hf
  obtain ⟨hc, ht⟩ : c = 60 ∧ t <+: k := List.cons_prefix_cons.mp hpre
  exact ⟨hc, fun hm => hk (ht.subset hm)⟩

/-- What the comparison with the starts says of the bytes held back. -/
theorem startMatch_cases (t : Bytes) :
    (heldStart t = false ∧ dsmlStartMatch t = none) ∨
    (heldStart t = true ∧ (∀ f ∈ dsmlStartForms, t ≠ f.1) ∧ ∃ i, dsmlStartMatch t = some (false, i)) ∨
    ∃ i, (t, i) ∈ dsmlStartForms ∧ dsmlStartMatch t = some (true, i) := by
  rw [dsmlStartMatch]
  cases hf : dsmlStartForms.find? fun f => t.isPrefixOf f.1 with
  | none =>
    refine .inl ⟨?_, rfl⟩
    rw [heldStart, List.any_eq_false]
    exact fun f hf' => List.find?_eq_none.mp hf f hf'
  | some f =>
    have hpre : t.isPrefixOf f.1 = true := @List.find?_some _ (fun f => t.isPrefixOf f.1) f dsmlStartForms hf
    have hmem := List.mem_of_find?_eq_some hf
    by_cases hlen : t.length = f.1.length
    · obtain rfl := (List.isPrefixOf_iff_prefix.mp hpre).eq_of_length hlen
      exact .inr (.inr ⟨f.2, hmem, by simp⟩)
    · refine .inr (.inl ⟨List.any_eq_true.mpr ⟨f, hmem, hpre⟩, ?_, f.2, by simp [hlen]⟩)
      rintro g hg rfl
      exact hlen (by rw [starts_apart g hg f hmem hpre])

/-- Two starts that end in one place are one start. -/
theorem start_unique {f g a b : Bytes} {i j : Bool} (hf : (f, i) ∈ dsmlStartForms) (hg : (g, j) ∈ dsmlStartForms)
    (h : a ++ f = b ++ g) : a = b ∧ f = g ∧ i = j := by
  obtain ⟨k, rfl, hk⟩ := start_cons hf
  obtain ⟨l, rfl, hl⟩ := start_cons hg
  -- both begin at the last `<`
  have hlen : k.length = l.length := by
    rcases List.append_eq_append_iff.mp h with ⟨c, rfl, hc⟩ | ⟨c, rfl, hc⟩
    · cases c with
      | nil => exact congrArg List.length (List.cons.inj hc).2
      | cons d c => exact absurd (by rw [(List.cons.inj hc).2]; simp) hk
    · cases c with
      | nil => exact (congrArg List.length (List.cons.inj hc).2).symm
      | cons d c => exact absurd (by rw [(List.cons.inj hc).2]; simp) hl
  obtain ⟨hab, hkl⟩ := List.append_inj' h (by simp [hlen])
  refine ⟨hab, hkl, ?_⟩
  have := starts_apart _ hf _ hg (by rw [hkl]; exact List.isPrefixOf_iff_prefix.mpr (List.prefix_refl _))
  exact congrArg Prod.snd this

/-! ## What is said -/

theorem gapped_prefix (tail t : Bytes) : tail <+: gapped tail t := by
  induction t generalizing tail with
  | nil => exact List.prefix_refl tail
  | cons c t ih =>
    rw [gapped]
    split
    · exact ih tail
    · split
      · exact (List.prefix_append tail [c]).trans (ih _)
      · exact List.prefix_append tail _

theorem gapped_mono (tail t r : Bytes) : gapped tail t <+: gapped tail (t ++ r) := by
  induction t generalizing tail with
  | nil => exact gapped_prefix tail r
  | cons c t ih =>
    rw [List.cons_append, gapped, gapped]
    split
    · exact ih tail
    · split
      · exact ih _
      · exact ⟨r, by simp⟩

theorem said_mono (gap : Bool) (t r : Bytes) : said gap t <+: said gap (t ++ r) := by
  cases gap
  · exact List.prefix_append t r
  · exact gapped_mono [] t r

theorem NoStart.mono {t t' : Bytes} (h : NoStart t') (ht : t <:+: t') : NoStart t :=
  fun f hf hin => h f hf (hin.trans ht)

/-! ## Text outside of a block -/

/-- What is bound to end without calls. -/
def Doomed (s : AgentStream) : Prop := s.dsmlInThink = true ∨ s.parser.state = .error ∧ s.dsmlActive = false

/-- Outside of a block, with the thinking and the plain text seen so far. -/
structure Outside (p : AgentDsmlParser) (thought plain : Bytes) (s : AgentStream) : Prop where
  parser : s.parser = p
  live : p.state ≠ .error
  active : s.dsmlActive = false
  dsmlInThink : s.dsmlInThink = false
  thinkTail : Tail 32 thought s.thinkDsml
  plainTail : Tail 32 plain s.plainDsml
  thinkClean : ¬HasMarker thought
  plainClean : ¬HasMarker plain

/-- Only the detector of the plain text and the terminal have changed. -/
def Noted (plain : Bytes) (s s' : AgentStream) : Prop :=
  ∃ d sh, s' = { s with plainDsml := d, shown := sh } ∧ Tail 32 plain d

variable {p : AgentDsmlParser} {thought plain : Bytes} {s : AgentStream}

theorem Outside.noted (h : Outside p thought plain s) {t : Bytes} {s' : AgentStream} (hn : Noted (plain ++ t) s s')
    (ht : ¬HasMarker (plain ++ t)) : Outside p thought (plain ++ t) s' := by
  obtain ⟨d, sh, rfl, htail⟩ := hn
  exact ⟨h.parser, h.live, h.active, h.dsmlInThink, h.thinkTail, htail, h.thinkClean, ht⟩

theorem writeByte_plain (h : Outside p thought plain s) (hin : s.inThink = false) (c : UInt8) :
    (¬HasMarker (plain ++ [c]) → Noted (plain ++ [c]) s (writeByte s c)) ∧
      (HasMarker (plain ++ [c]) → (writeByte s c).parser.state = .error ∧ (writeByte s c).dsmlActive = false) := by
  obtain ⟨htail, hhit⟩ := detector_marks h.plainTail h.plainClean c
  have hlive : s.parser.state ≠ .error := h.parser ▸ h.live
  have hwatch : (s.dsmlActive || s.inThink || s.dsmlInThink) = false := by
    rw [h.active, hin, h.dsmlInThink]
    rfl
  rw [writeByte, notePlainDsmlByte]
  dsimp only
  rw [if_neg hlive, hwatch, if_neg Bool.false_ne_true]
  by_cases hm : HasMarker (plain ++ [c])
  · refine ⟨fun hno => absurd hm hno, fun _ => ?_⟩
    rw [if_pos (hhit.mpr hm), malformedDsml, if_neg hlive]
    exact ⟨rfl, h.active⟩
  · refine ⟨fun _ => ?_, fun hyes => absurd hyes hm⟩
    rw [if_neg (fun hd => hm (hhit.mp hd))]
    exact ⟨_, _, rfl, htail⟩

/-- Bytes are written up to the first marker. -/
theorem flushBytes_plain (t : Bytes) : ∀ {plain : Bytes} {s : AgentStream}, Outside p thought plain s → s.inThink = false →
    (¬HasMarker (plain ++ t) → Noted (plain ++ t) s (flushBytes t s)) ∧
      (HasMarker (plain ++ t) → (flushBytes t s).parser.state = .error ∧ (flushBytes t s).dsmlActive = false) := by
  induction t with
  | nil =>
    intro plain s h hin
    rw [List.append_nil]
    exact ⟨fun _ => ⟨s.plainDsml, s.shown, rfl, h.plainTail⟩, fun hm => absurd hm h.plainClean⟩
  | cons c t ih =>
    intro plain s h hin
    obtain ⟨hclean, hmark⟩ := writeByte_plain h hin c
    rw [show plain ++ c :: t = plain ++ [c] ++ t by simp, flushBytes]
    by_cases hm : HasMarker (plain ++ [c])
    · have herr := hmark hm
      rw [if_pos herr.1]
      exact ⟨fun hno => absurd (hm.mono (List.prefix_append _ t).isInfix) hno, fun _ => herr⟩
    · have hn := hclean hm
      have hout := h.noted hn hm
      obtain ⟨d, sh, hw, -⟩ := hn
      rw [if_neg (by rw [hout.parser]; exact h.live)]
      obtain ⟨hclean', hmark'⟩ := ih hout (by rw [hw]; exact hin)
      refine ⟨fun hno => ?_, hmark'⟩
      obtain ⟨d', sh', hf, htail⟩ := hclean' hno
      exact ⟨d', sh', by rw [hf, hw], htail⟩

/-- In the thinking the bytes are only shown. -/
theorem flushBytes_thinking (t : Bytes) : ∀ {s : AgentStream}, s.parser.state ≠ .error → s.inThink = true →
    ∃ sh, flushBytes t s = { s with shown := sh } := by
  induction t with
  | nil => exact fun {s} _ _ => ⟨s.shown, rfl⟩
  | cons c t ih =>
    intro s hlive hin
    have hw : writeByte s c = { s with shown := s.shown ++ [.char c] } := by
      have hwatch : (s.dsmlActive || s.inThink || s.dsmlInThink) = true := by
        rw [hin, Bool.or_true, Bool.true_or]
      rw [writeByte, notePlainDsmlByte]
      dsimp only
      rw [if_neg hlive, hwatch, if_pos rfl]
    rw [flushBytes, hw, if_neg hlive]
    obtain ⟨sh, hsh⟩ := @ih { s with shown := s.shown ++ [.char c] } hlive hin
    exact ⟨sh, hsh⟩

/-- Within a stretch of plain text `t` in the mode `m`: `noted` has been written, the rest
    of what is said is held back. -/
structure Plainly (thought before : Bytes) (m : Mode) (t noted : Bytes) (s : AgentStream) : Prop
    extends Outside {} thought (before ++ noted) s where
  inThink : s.inThink = false
  text : (s.postThinkGap = true ∧ noted = [] ∧ ∀ r, said m.gap (t ++ r) = gapped s.dsmlStartTail r) ∨
    (s.postThinkGap = false ∧ ∀ r, said m.gap (t ++ r) = noted ++ s.dsmlStartTail ++ r)
  held : heldStart s.dsmlStartTail = true
  part : ∀ f ∈ dsmlStartForms, s.dsmlStartTail ≠ f.1
  best : ∀ u, u ≠ [] → u <:+ noted ++ s.dsmlStartTail → heldStart u = true → u = s.dsmlStartTail
  fresh : NoStart (noted ++ s.dsmlStartTail)

/-- The parser is told of a start; a start that opens a call is spelled out to it. -/
def openedStream (s : AgentStream) (opensCall : Bool) : AgentStream :=
  (blockHead opensCall).foldl feedDsmlByte (startDsml s false)

/-- What a byte makes of a stretch of plain text. -/
inductive StretchStep (thought before : Bytes) (m : Mode) (t noted : Bytes) (s : AgentStream) (c : UInt8) :
    AgentStream → Prop
  | goes {w : Bytes} {s' : AgentStream} : Plainly thought before m (t ++ [c]) w s' →
      StretchStep thought before m t noted s c s'
  | opens {f : Bytes} {i : Bool} : (f, i) ∈ dsmlStartForms → said m.gap (t ++ [c]) = noted ++ f →
      StretchStep thought before m t noted s c (openedStream s i)
  | doomed {w : Bytes} {s' : AgentStream} : HasMarker (before ++ w) → (∀ r, w <+: said m.gap (t ++ c :: r)) →
      (∀ a f i r, (f, i) ∈ dsmlStartForms → said m.gap (t ++ c :: r) = a ++ f → w <+: a) → Doomed s' →
      StretchStep thought before m t noted s c s'

namespace Plainly
variable {before t noted : Bytes} {m : Mode} {c : UInt8}

theorem said_eq (h : Plainly thought before m t noted s) : said m.gap t = noted ++ s.dsmlStartTail := by
  rcases h.text with ⟨-, hnoted, hsaid⟩ | ⟨-, hsaid⟩
  · have := hsaid []
    rwa [List.append_nil, gapped, ← List.nil_append s.dsmlStartTail, ← hnoted] at this
  · have := hsaid []
    rwa [List.append_nil, List.append_nil] at this

/-- Where the byte ends what is held back, all of it is text. -/
theorem said_flushed (h : Plainly thought before m t noted s) (hc : (s.postThinkGap && tagSpace c) = false)
    (hno : heldStart (s.dsmlStartTail ++ [c]) = false) (r : Bytes) :
    said m.gap (t ++ c :: r) = noted ++ s.dsmlStartTail ++ c :: r := by
  rcases h.text with ⟨hgap, hnoted, hsaid⟩ | ⟨-, hsaid⟩
  · rw [hgap, Bool.true_and] at hc
    rw [hsaid, gapped, hc, hno, hnoted]
    rfl
  · exact hsaid _

/-- What is written then is in front of every start that comes. -/
theorem flushed_before (h : Plainly thought before m t noted s) (hno : heldStart (s.dsmlStartTail ++ [c]) = false)
    {w : Bytes} (hw : w = noted ++ s.dsmlStartTail ∨ w = noted ++ s.dsmlStartTail ++ [c] ∧ c ≠ 60) {a f r : Bytes}
    {i : Bool} (hf : (f, i) ∈ dsmlStartForms) (hcut : noted ++ s.dsmlStartTail ++ c :: r = a ++ f) : w <+: a := by
  rcases List.append_eq_append_iff.mp hcut with ⟨b, ha, hb⟩ | ⟨b, ha, hb⟩
  · -- the start comes later, or at this byte
    rcases hw with rfl | ⟨rfl, hc⟩
    · exact ⟨b, ha.symm⟩
    · cases b with
      | nil =>
        obtain ⟨k, rfl, -⟩ := start_cons hf
        exact absurd (List.cons.inj hb).1 hc
      | cons d b =>
        obtain ⟨rfl, -⟩ := List.cons.inj hb
        exact ⟨b, by rw [ha]; simp⟩
  · cases b with
    | nil =>
      rw [List.append_nil] at ha
      rcases hw with rfl | ⟨rfl, hc⟩
      · exact ⟨[], by rw [ha, List.append_nil]⟩
      · obtain ⟨k, rfl, -⟩ := start_cons hf
        exact absurd (List.cons.inj hb).1.symm hc
    | cons d b =>
      -- a start that had begun is what is held back, and the byte goes on with it
      have hbegun : heldStart (d :: b ++ [c]) = true :=
        heldStart_iff.mpr ⟨_, hf, ⟨r, by rw [hb]; simp⟩⟩
      have htail := h.best (d :: b) (List.cons_ne_nil d b) ⟨a, ha.symm⟩
        (heldStart_mono hbegun (List.prefix_append _ [c]))
      rw [htail, hno] at hbegun
      cases hbegun

/-- What begins a start and ends with the byte. -/
theorem ends_held (h : Plainly thought before m t noted s) {u : Bytes} (hu : u ≠ [])
    (hsuf : u <:+ noted ++ s.dsmlStartTail ++ [c]) (hheld : heldStart u = true) :
    u = [c] ∧ c = 60 ∨ u = s.dsmlStartTail ++ [c] := by
  obtain ⟨v, d, rfl⟩ := List.eq_nil_or_concat u |>.resolve_left hu
  rw [List.concat_eq_append] at *
  obtain ⟨a, ha⟩ := hsuf
  rw [← List.append_assoc] at ha
  obtain ⟨hv, hd⟩ := List.append_inj' ha rfl
  obtain rfl : d = c := List.singleton_inj.mp hd
  cases v with
  | nil => exact .inl ⟨rfl, (heldStart_head hheld).1⟩
  | cons x v =>
    rw [h.best (x :: v) (List.cons_ne_nil x v) ⟨a, hv⟩ (heldStart_mono hheld (List.prefix_append _ [d]))]
    exact .inr rfl

theorem fresh_next (h : Plainly thought before m t noted s) (hpart : ∀ f ∈ dsmlStartForms, s.dsmlStartTail ++ [c] ≠ f.1) :
    NoStart (noted ++ s.dsmlStartTail ++ [c]) := by
  intro f hf hin
  rcases List.infix_concat_iff.mp hin with hsuf | hin
  · have hne : f.1 ≠ [] := by
      obtain ⟨k, hk, -⟩ := @start_cons f.1 f.2 hf
      rw [hk]
      exact List.cons_ne_nil _ k
    rcases h.ends_held hne hsuf (heldStart_iff.mpr ⟨f, hf, List.prefix_refl _⟩) with ⟨hone, rfl⟩ | htail
    · exact absurd hone ((by decide +kernel : ∀ f ∈ dsmlStartForms, f.1 ≠ [60]) f hf)
    · exact hpart f hf htail.symm
  · exact h.fresh f hf hin

end Plainly

/-- What a byte makes of plain text. -/
theorem stretch_step {before t noted : Bytes} {m : Mode} (h : Plainly thought before m t noted s) (c : UInt8) :
    StretchStep thought before m t noted s c (normalByte s c) := by
  have hlive : s.parser.state ≠ .error := h.parser ▸ h.live
  have hthink : noteThinkingDsmlByte s c = s := by
    rw [noteThinkingDsmlByte, h.inThink]
    rfl
  have hshort : s.dsmlStartTail.length < 64 := by
    obtain ⟨f, hf, hpre⟩ := heldStart_iff.mp h.held
    exact Nat.lt_of_le_of_lt hpre.length_le (start_shape f hf).2.2
  rw [normalByte, if_neg hlive, hthink]
  dsimp only
  cases hgap : s.postThinkGap && tagSpace c with
  | true =>
    rw [if_pos rfl]
    obtain ⟨hgap, hc⟩ := Bool.and_eq_true_iff.mp hgap
    rcases h.text with ⟨-, hnoted, hsaid⟩ | ⟨hno, -⟩
    · refine .goes ⟨h.toOutside, h.inThink, .inl ⟨hgap, hnoted, fun r => ?_⟩, h.held, h.part, h.best, h.fresh⟩
      rw [List.append_assoc, hsaid, List.singleton_append, gapped, if_pos hc]
    · rw [hno] at hgap
      cases hgap
  | false =>
    rw [if_neg Bool.false_ne_true]
    -- what is flushed is text, and the stretch goes on without a gap
    have hwritten : ∀ {w tail : Bytes} {s' : AgentStream}, heldStart (s.dsmlStartTail ++ [c]) = false →
        (w = noted ++ s.dsmlStartTail ∧ tail = [60] ∧ c = 60 ∨ w = noted ++ s.dsmlStartTail ++ [c] ∧ tail = [] ∧ c ≠ 60) →
        (¬HasMarker (before ++ w) → ∃ d sh, s' = { s with plainDsml := d, shown := sh, postThinkGap := false, dsmlStartTail := tail } ∧
          Tail 32 (before ++ w) d) →
        (HasMarker (before ++ w) → Doomed s') → StretchStep thought before m t noted s c s' := by
      intro w tail s' hno hw hclean hmark
      have hsaid := h.said_flushed hgap hno
      have hwc : w ++ tail = noted ++ s.dsmlStartTail ++ [c] := by
        rcases hw with ⟨rfl, rfl, rfl⟩ | ⟨rfl, rfl, -⟩
        · rfl
        · rw [List.append_nil]
      by_cases hm : HasMarker (before ++ w)
      · refine .doomed hm (fun r => ?_) (fun a f i r hf hcut => ?_) (hmark hm)
        · rw [hsaid, show noted ++ s.dsmlStartTail ++ c :: r = (w ++ tail) ++ r by rw [hwc]; simp, List.append_assoc]
          exact List.prefix_append w _
        · refine h.flushed_before hno ?_ hf (by rw [← hsaid, hcut])
          rcases hw with ⟨rfl, -, -⟩ | ⟨rfl, -, hc⟩
          · exact .inl rfl
          · exact .inr ⟨rfl, hc⟩
      · obtain ⟨d, sh, rfl, htail⟩ := hclean hm
        have hbest : ∀ u, u ≠ [] → u <:+ w ++ tail → heldStart u = true → u = tail := by
          intro u hu hsuf hheld
          rw [hwc] at hsuf
          rcases h.ends_held hu hsuf hheld with ⟨rfl, hc⟩ | rfl
          · rcases hw with ⟨-, rfl, -⟩ | ⟨-, -, hne⟩
            · rw [hc]
            · exact absurd hc hne
          · rw [hno] at hheld
            cases hheld
        have hfresh : NoStart (w ++ tail) := by
          rw [hwc]
          refine h.fresh_next fun f hf heq => ?_
          rw [heq, heldStart_iff.mpr ⟨f, hf, List.prefix_refl _⟩] at hno
          cases hno
        have htails : heldStart tail = true ∧ ∀ f ∈ dsmlStartForms, tail ≠ f.1 := by
          rcases hw with ⟨-, rfl, -⟩ | ⟨-, rfl, -⟩
          · decide +kernel
          · decide +kernel
        refine .goes ⟨⟨h.parser, h.live, h.active, h.dsmlInThink, h.thinkTail, htail, h.thinkClean, hm⟩,
          h.inThink, .inr ⟨rfl, fun r => ?_⟩, htails.1, htails.2, hbest, hfresh⟩
        rw [List.append_assoc, List.singleton_append, hsaid]
        show _ = w ++ tail ++ r
        rw [hwc]
        simp
    by_cases hstart : s.dsmlStartTail ≠ [] ∨ c = 60
    · rw [if_pos hstart, startByte, if_pos hshort]
      dsimp only
      rcases startMatch_cases (s.dsmlStartTail ++ [c]) with ⟨hno, hmatch⟩ | ⟨hheld, hpart, i, hmatch⟩ | ⟨i, hf, hmatch⟩
      · -- no start: what is held back is text
        rw [hmatch]
        dsimp only
        have hout : Outside {} thought (before ++ noted)
            { s with dsmlStartTail := s.dsmlStartTail ++ [c], postThinkGap := false } :=
          ⟨h.parser, h.live, h.active, h.dsmlInThink, h.thinkTail, h.plainTail, h.thinkClean, h.plainClean⟩
        by_cases hc : c = 60
        · have htail : s.dsmlStartTail ≠ [] := by
            intro htail
            rw [htail, hc] at hno
            exact absurd hno (by decide +kernel)
          have hpos := List.length_pos_of_ne_nil htail
          rw [if_pos ⟨by simpa using hpos, by simp [hc]⟩, List.dropLast_concat]
          obtain ⟨hclean, hmark⟩ := flushBytes_plain s.dsmlStartTail hout h.inThink
          rw [List.append_assoc] at hclean hmark
          refine hwritten hno (.inl ⟨rfl, rfl, hc⟩) (fun hm => ?_) (fun hm => .inr (hmark hm))
          obtain ⟨d, sh, hflush, htail⟩ := hclean hm
          refine ⟨d, sh, ?_, htail⟩
          rw [hflush]
          dsimp only
          rw [if_neg hlive]
        · rw [if_neg fun hlast => hc (by simpa using hlast.2), flushStartTail]
          dsimp only
          rw [if_neg (by simp)]
          obtain ⟨hclean, hmark⟩ := flushBytes_plain (s.dsmlStartTail ++ [c]) hout h.inThink
          rw [List.append_assoc, ← List.append_assoc noted] at hclean hmark
          refine hwritten hno (.inr ⟨rfl, rfl, hc⟩) (fun hm => ?_) (fun hm => .inr (hmark hm))
          obtain ⟨d, sh, hflush, htail⟩ := hclean hm
          exact ⟨d, sh, by rw [hflush], htail⟩
      · -- a start may still come
        rw [hmatch]
        dsimp only
        rw [if_neg Bool.false_ne_true]
        refine .goes ⟨⟨h.parser, h.live, h.active, h.dsmlInThink, h.thinkTail, h.plainTail, h.thinkClean,
          h.plainClean⟩, h.inThink, ?_, hheld, hpart, fun u hu hsuf hu' => ?_, ?_⟩
        · rcases h.text with ⟨hgap', hnoted, hsaid⟩ | ⟨hgap', hsaid⟩
          · rw [hgap', Bool.true_and] at hgap
            refine .inl ⟨hgap', hnoted, fun r => ?_⟩
            rw [List.append_assoc, hsaid, List.singleton_append, gapped, hgap, if_neg Bool.false_ne_true, if_pos hheld]
          · refine .inr ⟨hgap', fun r => ?_⟩
            rw [List.append_assoc, hsaid]
            simp
        · rw [← List.append_assoc] at hsuf
          rcases h.ends_held hu hsuf hu' with ⟨rfl, rfl⟩ | rfl
          · cases htail : s.dsmlStartTail with
            | nil => rfl
            | cons x l =>
              rw [htail] at hheld
              exact absurd (by simp) (heldStart_head hheld).2
          · rfl
        · rw [← List.append_assoc]
          exact h.fresh_next hpart
      · -- a start
        rw [hmatch]
        dsimp only
        rw [if_pos rfl]
        have hopened : (if i = true then canonicalInvoke.foldl feedDsmlByte
              (startDsml { s with dsmlStartTail := s.dsmlStartTail ++ [c] } s.inThink)
            else startDsml { s with dsmlStartTail := s.dsmlStartTail ++ [c] } s.inThink) = openedStream s i := by
          rw [openedStream, startDsml, startDsml, h.inThink]
          cases i <;> rfl
        rw [hopened]
        refine .opens hf ?_
        have hheld := heldStart_iff.mpr ⟨_, hf, List.prefix_refl (s.dsmlStartTail ++ [c])⟩
        rcases h.text with ⟨hgap', hnoted, hsaid⟩ | ⟨hgap', hsaid⟩
        · rw [hgap', Bool.true_and] at hgap
          rw [hsaid, gapped, hgap, if_neg Bool.false_ne_true, if_pos hheld, gapped, hnoted]
          rfl
        · rw [hsaid, List.append_assoc]
    · rw [if_neg hstart]
      rw [not_or, not_not] at hstart
      have hno : heldStart (s.dsmlStartTail ++ [c]) = false := by
        rw [hstart.1, List.nil_append, Bool.eq_false_iff]
        exact fun hheld => hstart.2 (heldStart_head hheld).1
      have hout : Outside {} thought (before ++ noted) { s with postThinkGap := false } :=
        ⟨h.parser, h.live, h.active, h.dsmlInThink, h.thinkTail, h.plainTail, h.thinkClean, h.plainClean⟩
      obtain ⟨hclean, hmark⟩ := writeByte_plain hout h.inThink c
      rw [List.append_assoc] at hclean hmark
      have hw : noted ++ s.dsmlStartTail ++ [c] = noted ++ [c] := by rw [hstart.1, List.append_nil]
      rw [← hw] at hclean hmark
      refine hwritten hno (.inr ⟨rfl, rfl, hstart.2⟩) (fun hm => ?_) fun hm => .inr (hmark hm)
      obtain ⟨d, sh, hwrite, htail⟩ := hclean hm
      refine ⟨d, sh, ?_, htail⟩
      rw [hwrite]
      simp only [hstart.1]

/-! ## Thinking -/

/-- Within the thinking, with all of it seen so far. -/
structure Thinks (seen plain : Bytes) (s : AgentStream) : Prop extends Outside {} seen plain s where
  inThink : s.inThink = true
  gap : s.postThinkGap = false
  held : heldStart s.dsmlStartTail = true
  suffix : s.dsmlStartTail <:+ seen

theorem heldStart_short {t : Bytes} (h : heldStart t = true) : t.length < 64 := by
  obtain ⟨f, hf, hpre⟩ := heldStart_iff.mp h
  exact Nat.lt_of_le_of_lt hpre.length_le (start_shape f hf).2.2

/-- What is held back in the thinking is only shown. -/
theorem thinks_shown {seen : Bytes} (h : Outside {} seen plain s) (hin : s.inThink = true) (tail : Bytes) (gap : Bool)
    (sh : List Shown) (hgap : gap = false) (hheld : heldStart tail = true) (hsuf : tail <:+ seen) :
    Thinks seen plain { s with dsmlStartTail := tail, postThinkGap := gap, shown := sh } :=
  ⟨⟨h.parser, h.live, h.active, h.dsmlInThink, h.thinkTail, h.plainTail, h.thinkClean, h.plainClean⟩, hin, hgap, hheld, hsuf⟩

/-- What a byte makes of thinking without a marker. -/
theorem thinks_byte {seen : Bytes} {c : UInt8} (h : Outside {} (seen ++ [c]) plain s) (hin : s.inThink = true)
    (hgap : s.postThinkGap = false) (hheld : heldStart s.dsmlStartTail = true) (hsuf : s.dsmlStartTail <:+ seen) :
    Thinks (seen ++ [c]) plain
      (if s.dsmlStartTail ≠ [] ∨ c = 60 then startByte s c else writeByte { s with postThinkGap := false } c) := by
  have hlive : s.parser.state ≠ .error := h.parser ▸ h.live
  have hnext : s.dsmlStartTail ++ [c] <:+ seen ++ [c] := by
    obtain ⟨a, ha⟩ := hsuf
    exact ⟨a, by rw [← ha, List.append_assoc]⟩
  have hnil : heldStart [] = true := by decide +kernel
  by_cases hstart : s.dsmlStartTail ≠ [] ∨ c = 60
  · rw [if_pos hstart, startByte, if_pos (heldStart_short hheld)]
    dsimp only
    rcases startMatch_cases (s.dsmlStartTail ++ [c]) with ⟨-, hmatch⟩ | ⟨hheld', -, i, hmatch⟩ | ⟨i, hf, -⟩
    · rw [hmatch]
      dsimp only
      by_cases hlast : 1 < (s.dsmlStartTail ++ [c]).length ∧ (s.dsmlStartTail ++ [c]).getLast? = some 60
      · rw [if_pos hlast]
        obtain ⟨sh, hflush⟩ := @flushBytes_thinking (s.dsmlStartTail ++ [c]).dropLast
          { s with dsmlStartTail := s.dsmlStartTail ++ [c], postThinkGap := false } hlive hin
        rw [hflush]
        dsimp only
        rw [if_neg hlive]
        obtain rfl : c = 60 := by simpa using hlast.2
        exact thinks_shown h hin [60] false sh rfl (by decide +kernel) (List.suffix_append seen [60])
      · rw [if_neg hlast, flushStartTail]
        dsimp only
        rw [if_neg (by simp)]
        obtain ⟨sh, hflush⟩ := @flushBytes_thinking (s.dsmlStartTail ++ [c])
          { s with dsmlStartTail := s.dsmlStartTail ++ [c], postThinkGap := false } hlive hin
        rw [hflush]
        exact thinks_shown h hin [] false sh rfl hnil List.nil_suffix
    · rw [hmatch]
      exact thinks_shown h hin _ _ s.shown hgap hheld' hnext
    · exact absurd ((start_marked _ hf).mono hnext.isInfix) h.thinkClean
  · rw [if_neg hstart]
    obtain ⟨htail, -⟩ := not_or.mp hstart
    have hout : flushBytes [c] { s with postThinkGap := false } = writeByte { s with postThinkGap := false } c := by
      rw [flushBytes, flushBytes, ite_self]
    obtain ⟨sh, hflush⟩ := @flushBytes_thinking [c] { s with postThinkGap := false } hlive hin
    rw [← hout, hflush]
    exact thinks_shown h hin _ false sh rfl hheld (not_not.mp htail ▸ List.nil_suffix)

/-- A start is told of, and the rest of a byte's round keeps what is known of the thinking. -/
theorem startDsml_doubt (h : s.dsmlInThink = true) (ignored : Bool) : (startDsml s ignored).dsmlInThink = true := by
  rw [startDsml, h]
  rfl

theorem feedDsmlByte_doubt (h : s.dsmlInThink = true) (c : UInt8) : (feedDsmlByte s c).dsmlInThink = true := by
  rw [feedDsmlByte]
  dsimp only
  split
  · split
    · rfl
    · exact h
  · split
    · split
      · rfl
      · exact h
    · exact h

/-- Writing leaves the block and the thinking as they are, and an error stays. -/
structure Writes (s s' : AgentStream) : Prop where
  dsmlInThink : s'.dsmlInThink = s.dsmlInThink
  active : s'.dsmlActive = s.dsmlActive
  error : s.parser.state = .error → s'.parser.state = .error

theorem Writes.refl (s : AgentStream) : Writes s s := ⟨rfl, rfl, id⟩

theorem Writes.trans {s t u : AgentStream} (h : Writes s t) (h' : Writes t u) : Writes s u :=
  ⟨h'.dsmlInThink.trans h.dsmlInThink, h'.active.trans h.active, h'.error ∘ h.error⟩

theorem Writes.doomed {s t : AgentStream} (h : Writes s t) (hs : Doomed s) : Doomed t := by
  rcases hs with hs | ⟨hs, ha⟩
  · exact .inl (h.dsmlInThink.trans hs)
  · exact .inr ⟨h.error hs, h.active.trans ha⟩

theorem writeByte_writes (s : AgentStream) (c : UInt8) : Writes s (writeByte s c) := by
  rw [writeByte, notePlainDsmlByte]
  dsimp only
  split
  · exact ⟨rfl, rfl, id⟩
  · split
    · exact ⟨rfl, rfl, id⟩
    · split
      · rw [malformedDsml]
        split
        · exact ⟨rfl, rfl, id⟩
        · exact ⟨rfl, rfl, fun _ => rfl⟩
      · exact ⟨rfl, rfl, id⟩

theorem flushBytes_writes (t : Bytes) : ∀ s : AgentStream, Writes s (flushBytes t s) := by
  induction t with
  | nil => exact Writes.refl
  | cons c t ih =>
    intro s
    rw [flushBytes]
    split
    · exact writeByte_writes s c
    · exact (writeByte_writes s c).trans (ih _)

theorem flushStartTail_writes (s : AgentStream) : Writes s (flushStartTail s) := by
  rw [flushStartTail]
  split
  · exact .refl s
  · have h := flushBytes_writes s.dsmlStartTail { s with postThinkGap := false }
    exact ⟨h.dsmlInThink, h.active, h.error⟩

theorem startByte_doubt (h : s.dsmlInThink = true) (c : UInt8) : (startByte s c).dsmlInThink = true := by
  have hblock : ∀ (t : Bytes) {s : AgentStream}, s.dsmlInThink = true → (t.foldl feedDsmlByte s).dsmlInThink = true := by
    intro t
    induction t with
    | nil => exact fun h => h
    | cons c t ih => exact fun h => ih (feedDsmlByte_doubt h c)
  rw [startByte]
  dsimp only
  generalize (if s.dsmlStartTail.length < 64 then s.dsmlStartTail ++ [c] else s.dsmlStartTail) = tail
  split
  · split
    · split
      · exact hblock _ (startDsml_doubt h _)
      · exact startDsml_doubt h _
    · exact h
  · split
    · exact (flushBytes_writes _ _).dsmlInThink.trans h
    · exact (flushStartTail_writes _).dsmlInThink.trans h

theorem normalByte_doubt {gap : Bool} (h : s.dsmlInThink = true) (c : UInt8) :
    (if gap && tagSpace c then s else if s.dsmlStartTail ≠ [] ∨ c = 60 then startByte s c
      else writeByte { s with postThinkGap := false } c).dsmlInThink = true := by
  split
  · exact h
  · split
    · exact startByte_doubt h c
    · exact (writeByte_writes _ c).dsmlInThink.trans h

/-- What a byte makes of thinking. -/
theorem thinks_step {seen : Bytes} (h : Thinks seen plain s) (c : UInt8) :
    (¬HasMarker (seen ++ [c]) → Thinks (seen ++ [c]) plain (normalByte s c)) ∧
      (HasMarker (seen ++ [c]) → Doomed (normalByte s c)) := by
  have hlive : s.parser.state ≠ .error := h.parser ▸ h.live
  obtain ⟨htail, hhit⟩ := detector_marks h.thinkTail h.thinkClean c
  -- the stream behind the detector
  obtain ⟨u, hu, hnote⟩ : ∃ u : AgentStream,
      u = { s with thinkDsml := (detectorFeed s.thinkDsml c).1, dsmlInThink := (detectorFeed s.thinkDsml c).2 } ∧
      noteThinkingDsmlByte s c = u := by
    refine ⟨_, rfl, ?_⟩
    rw [noteThinkingDsmlByte, h.inThink, h.dsmlInThink]
    rfl
  have hgap : u.postThinkGap = false := by rw [hu, ← h.gap]
  have hdoubt : u.dsmlInThink = true ↔ HasMarker (seen ++ [c]) := by rw [hu, ← hhit]
  rw [normalByte, if_neg hlive, hnote]
  dsimp only
  refine ⟨fun hno => ?_, fun hm => .inl (normalByte_doubt (hdoubt.mpr hm) c)⟩
  have hout : Outside {} (seen ++ [c]) plain u := by
    refine ⟨?_, h.live, ?_, Bool.eq_false_iff.mpr fun hd => hno (hdoubt.mp hd), ?_, ?_, hno, h.plainClean⟩ <;> rw [hu]
    · exact h.parser
    · exact h.active
    · exact htail
    · exact h.plainTail
  rw [hgap, Bool.false_and, if_neg Bool.false_ne_true]
  exact thinks_byte hout (by rw [hu, ← h.inThink]) hgap (by rw [hu]; exact h.held) (by rw [hu]; exact h.suffix)

/-! ## Think tags -/

/-- Where a stretch of plain text begins. -/
theorem plainly_begins (h : Outside {} thought plain s) (hin : s.inThink = false) (htail : s.dsmlStartTail = []) :
    Plainly thought plain ⟨false, s.postThinkGap⟩ [] [] s := by
  refine ⟨by rwa [List.append_nil], hin, ?_, by rw [htail]; decide +kernel, by rw [htail]; decide +kernel, ?_, ?_⟩
  · cases s.postThinkGap with
    | true => exact .inl ⟨rfl, rfl, fun r => by rw [htail]; rfl⟩
    | false => exact .inr ⟨rfl, fun r => by rw [htail]; rfl⟩
  · intro u hu hsuf _
    rw [htail] at hsuf
    exact absurd (List.suffix_nil.mp hsuf) hu
  · intro f hf hin
    rw [htail] at hin
    have hhead := (start_shape f hf).1
    rw [List.infix_nil.mp hin] at hhead
    cases hhead

theorem thinks_begins (h : Outside {} thought plain s) (hin : s.inThink = true) (htail : s.dsmlStartTail = [])
    (hgap : s.postThinkGap = false) : Thinks thought plain s :=
  ⟨h, hin, hgap, by rw [htail]; decide +kernel, by rw [htail]; exact List.nil_suffix⟩

/-- A tag ends what is held back. -/
theorem Plainly.flushed {before t noted : Bytes} {m : Mode} (h : Plainly thought before m t noted s) :
    (¬HasMarker (before ++ said m.gap t) → Outside {} thought (before ++ said m.gap t) (flushStartTail s) ∧
      (flushStartTail s).dsmlStartTail = []) ∧ (HasMarker (before ++ said m.gap t) → Doomed (flushStartTail s)) := by
  rw [h.said_eq, ← List.append_assoc, flushStartTail]
  by_cases htail : s.dsmlStartTail = []
  · rw [if_pos htail, htail, List.append_nil]
    exact ⟨fun _ => ⟨h.toOutside, rfl⟩, fun hm => absurd hm h.plainClean⟩
  · rw [if_neg htail]
    have hout : Outside {} thought (before ++ noted) { s with postThinkGap := false } :=
      ⟨h.parser, h.live, h.active, h.dsmlInThink, h.thinkTail, h.plainTail, h.thinkClean, h.plainClean⟩
    obtain ⟨hclean, hmark⟩ := flushBytes_plain s.dsmlStartTail hout h.inThink
    refine ⟨fun hm => ⟨?_, rfl⟩, fun hm => .inr (hmark hm)⟩
    have hnext := hout.noted (hclean hm) hm
    exact ⟨hnext.parser, hnext.live, hnext.active, hnext.dsmlInThink, hnext.thinkTail, hnext.plainTail, hnext.thinkClean,
      hnext.plainClean⟩

theorem Thinks.flushed {seen : Bytes} (h : Thinks seen plain s) :
    Outside {} seen plain (flushStartTail s) ∧ (flushStartTail s).dsmlStartTail = [] := by
  rw [flushStartTail]
  by_cases htail : s.dsmlStartTail = []
  · rw [if_pos htail]
    exact ⟨h.toOutside, htail⟩
  · rw [if_neg htail]
    obtain ⟨sh, hflush⟩ := @flushBytes_thinking s.dsmlStartTail { s with postThinkGap := false }
      (h.parser ▸ h.live) h.inThink
    rw [hflush]
    exact ⟨⟨h.parser, h.live, h.active, h.dsmlInThink, h.thinkTail, h.plainTail, h.thinkClean, h.plainClean⟩, rfl⟩

theorem tag_opened (h : Outside {} thought plain (flushStartTail s)) (htail : (flushStartTail s).dsmlStartTail = []) :
    Thinks thought plain (openThink s) :=
  thinks_begins ⟨h.parser, h.live, h.active, h.dsmlInThink, h.thinkTail, h.plainTail, h.thinkClean, h.plainClean⟩ rfl htail
    rfl

theorem tag_closed (h : Outside {} thought plain (flushStartTail s)) (htail : (flushStartTail s).dsmlStartTail = []) :
    Plainly thought plain ⟨false, true⟩ [] [] (closeThink s) :=
  @plainly_begins _ _ (closeThink s)
    ⟨h.parser, h.live, h.active, h.dsmlInThink, h.thinkTail, h.plainTail, h.thinkClean, h.plainClean⟩ rfl htail

/-! ## Bound to end without calls -/

theorem Doomed.byte (h : Doomed s) (c : UInt8) : Doomed (streamByte s c) := by
  rw [streamByte]
  rcases h with h | ⟨herr, hact⟩
  · left
    split
    · exact feedDsmlByte_doubt h c
    · rw [normalByte]
      split
      · exact h
      · have hnote : noteThinkingDsmlByte s c = s := by rw [noteThinkingDsmlByte, h, Bool.or_true, if_pos rfl]
        rw [hnote]
        exact normalByte_doubt h c
  · rw [hact, if_neg Bool.false_ne_true, normalByte, if_pos herr]
    exact .inr ⟨herr, hact⟩

/-- What is bound to end without calls stays so. -/
theorem Doomed.taken {finish : Bool} {t : AgentStream} {r : Bytes} {n : Nat} (h : Doomed s) (ht : Taken finish s r t n) :
    Doomed t := by
  have hflush := (flushStartTail_writes s).doomed h
  cases ht with
  | opened _ => exact hflush
  | closed _ => exact hflush
  | byte _ => exact h.byte _

theorem Doomed.finished (h : Doomed s) (r : Bytes) : Doomed (finishStream (finishLoop s r)) := by
  have hloop : ∀ n {s : AgentStream} {r : Bytes}, r.length = n → Doomed s → Doomed (finishLoop s r) := by
    intro n
    induction n using Nat.strongRecOn with
    | ind n ih =>
      intro s r hn h
      by_cases hr : r = []
      · rw [hr, finishLoop_nil]
        exact h
      · obtain ⟨t, k, htake⟩ := @finish_takes s r hr
        have htaken := taken_iff.mp htake
        have hk := htaken.pos
        rw [finishLoop_some htaken]
        exact ih _ (by rw [List.length_drop]; omega) rfl (h.taken htaken)
  have h := (flushStartTail_writes _).doomed (hloop _ (Eq.refl r.length) h)
  have hlast : ∀ {v : AgentStream}, Doomed v →
      Doomed (if v.dsmlInThink && !v.dsmlInThinkReported then finishIgnoredDsml v inThinkMsg else v) := by
    intro v hv
    split
    · exact .inl rfl
    · exact hv
  rw [finishStream]
  generalize flushStartTail (finishLoop s r) = u at h
  refine hlast ?_
  dsimp only
  split
  · next hact =>
    split
    · exact .inl rfl
    · rcases h with h | ⟨-, hno⟩
      · exact .inl h
      · rw [hno] at hact
        cases hact
  · exact h

end Ds4.Agent
