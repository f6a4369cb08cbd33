import Ds4.Server.ToolMap

/- Which parts of a text the walk of the tool-id map takes for blocks, without the
   walk: from the left, the first opening with a tag further on that closes it, up to
   the first such tag, and again from there (`Cut`).

   PROVED here: `find_next_dsml_tool_block` finds that first part
   (`findNextDsmlToolBlock_iff`), and its rounds give the parts (`mem_textBlocks`). -/
namespace Ds4.Server
open Ds4 Bytes

abbrev endTag (style : DsmlStyle) : Bytes := (dsmlSyntax style).toolCallsEnd

/-- The opening stands at `i`, and its end tag further on. -/
def OpensAt (p : Bytes) (c : DsmlStyle × Bytes) (i : Nat) : Prop :=
  startsWith c.2 (p.drop i) = true ∧ endTag c.1 <:+: p.drop i

/-- `d` ends with the tag, which occurs in it nowhere before. -/
def ClosedBy (tag d : Bytes) : Prop := tag <:+ d ∧ ∀ x y, d = x ++ tag ++ y → y = []

/-- The text's first block: the first opening that is closed, up to where it is. -/
structure FirstBlock (p before d rest : Bytes) : Prop where
  text : p = before ++ d ++ rest
  block : ∃ c ∈ toolStartCandidates, startsWith c.2 (d ++ rest) = true ∧ ClosedBy (endTag c.1) d
  first : ∀ c ∈ toolStartCandidates, ∀ i < before.length, ¬OpensAt p c i

/-- The text, read from the left, is cut into blocks and what is between, and `d` is one of the blocks. -/
inductive Cut (d : Bytes) : Bytes → Prop where
  | here {p before rest : Bytes} (h : FirstBlock p before d rest) : Cut d p
  | later {p before d' rest : Bytes} (h : FirstBlock p before d' rest) (hrest : Cut d rest) : Cut d p

section
variable {p : Bytes} {best : Option FoundBlock} {c : DsmlStyle × Bytes} {cs : List (DsmlStyle × Bytes)}

theorem closedBy_of_strstr {tag s body e : Bytes} (h : strstr tag s = some (body, e)) :
    ClosedBy tag (body ++ tag) ∧ s = body ++ tag ++ e.drop tag.length := by
  obtain ⟨rfl, hat⟩ := strstr_sound h
  obtain ⟨hhere, hbefore⟩ := strstr_index h
  obtain ⟨r, rfl⟩ := startsWith_iff.mp hat
  refine ⟨⟨List.suffix_append _ _, fun x y hxy => ?_⟩, by simp⟩
  -- an earlier end of the tag would be an earlier find
  by_contra hy
  have hlen := congrArg List.length hxy
  have hpos := List.length_pos_iff.mpr hy
  simp only [List.length_append] at hlen
  have hnot := hbefore x.length (by omega)
  have heq : body ++ (tag ++ r) = x ++ (tag ++ (y ++ r)) := by
    rw [← List.append_assoc, hxy]
    simp
  rw [heq, List.drop_left, startsWith_append] at hnot
  cases hnot

/-- What the best find over some forms is: the first place where one of them opens. -/
def BestBlock (p : Bytes) (cs : List (DsmlStyle × Bytes)) : Option FoundBlock → Prop
  | none => ∀ c ∈ cs, ∀ i, ¬OpensAt p c i
  | some f =>
    (f.start ≤ p.length ∧ p.drop f.start = f.block ++ f.rest) ∧
      (∃ c ∈ cs, startsWith c.2 (f.block ++ f.rest) = true ∧ ClosedBy (endTag c.1) f.block) ∧
      ∀ c ∈ cs, ∀ i < f.start, ¬OpensAt p c i

/-- A round that leaves the find as it is: the new form opens nowhere before it. -/
theorem BestBlock.keep (h : BestBlock p cs best)
    (hno : ∀ i, (∀ f, best = some f → i < f.start) → ¬OpensAt p c i) : BestBlock p (cs ++ [c]) best := by
  cases best with
  | none =>
    intro c' hc' i
    rcases List.mem_append.mp hc' with hc' | hc'
    · exact h c' hc' i
    · rw [List.mem_singleton.mp hc']
      exact hno i fun f hf => by cases hf
  | some f =>
    obtain ⟨htext, ⟨c', hc', hopen⟩, hfirst⟩ := h
    refine ⟨htext, ⟨c', List.mem_append_left _ hc', hopen⟩, fun c'' hc'' i hi => ?_⟩
    rcases List.mem_append.mp hc'' with hc'' | hc''
    · exact hfirst c'' hc'' i hi
    · rw [List.mem_singleton.mp hc'']
      refine hno i fun g hg => ?_
      rw [← Option.some.inj hg]
      exact hi

theorem betterBlock_best (c : DsmlStyle × Bytes) (h : BestBlock p cs best) :
    BestBlock p (cs ++ [c]) (betterBlock p best c) := by
  unfold betterBlock
  simp only []
  split
  next hnone => exact h.keep fun i _ hopen => absurd hopen.1 (by simp [strstr_nowhere hnone i])
  next before s hfound =>
    obtain ⟨hp, hat⟩ := strstr_sound hfound
    obtain ⟨-, hbefore⟩ := strstr_index hfound
    have hearly : ∀ i < before.length, ¬OpensAt p c i := fun i hi hopen => absurd hopen.1 (by simp [hbefore i hi])
    split
    next hlater =>
      -- the find so far starts no later
      cases best with
      | none => cases hlater
      | some f =>
        have hle : f.start ≤ before.length := by simpa using hlater
        exact h.keep fun i hi => hearly i (lt_of_lt_of_le (hi f rfl) hle)
    next hsooner =>
      split
      next hopen =>
        -- an opening without an end
        refine h.keep fun i _ hi => ?_
        by_cases hlt : i < before.length
        · exact hearly i hlt hi
        · have hsuf : p.drop i <:+ s := by
            rw [hp, List.drop_append, List.drop_eq_nil_of_le (by omega), List.nil_append]
            exact List.drop_suffix _ _
          exact strstr_of_infix (hi.2.trans hsuf.isInfix) hopen
      next body e hclosed =>
        obtain ⟨hby, hs⟩ := closedBy_of_strstr hclosed
        refine ⟨⟨by simp [hp], by rw [hp, List.drop_left, hs]⟩, ⟨c, by simp, ?_, hby⟩, fun c' hc' i hi => ?_⟩
        · rw [← hs]
          exact hat
        · rcases List.mem_append.mp hc' with hc' | hc'
          · cases best with
            | none => exact h c' hc' i
            | some f =>
              refine h.2.2 c' hc' i ?_
              have hlt : before.length < f.start := by simpa using hsooner
              exact lt_trans hi hlt
          · rw [List.mem_singleton.mp hc']
            exact hearly i hi

theorem foldl_betterBlock (cs' : List (DsmlStyle × Bytes)) (h : BestBlock p cs best) :
    BestBlock p (cs ++ cs') (cs'.foldl (betterBlock p) best) := by
  induction cs' generalizing cs best with
  | nil => simpa using h
  | cons c cs' ih =>
    have := ih (betterBlock_best c h)
    rwa [List.append_assoc, List.singleton_append] at this

theorem findNextDsmlToolBlock_best (p : Bytes) :
    BestBlock p toolStartCandidates (findNextDsmlToolBlock p) := by
  have hnone : BestBlock p [] none := fun c hc => absurd hc List.not_mem_nil
  exact foldl_betterBlock toolStartCandidates hnone

end

/-! ## The first block -/

/-- No opening is the beginning of another. -/
theorem openings_apart : ∀ c ∈ toolStartCandidates, ∀ c' ∈ toolStartCandidates, c.2 <+: c'.2 → c = c' := by
  decide

theorem opening_unique {c c' : DsmlStyle × Bytes} {s : Bytes} (hc : c ∈ toolStartCandidates)
    (hc' : c' ∈ toolStartCandidates) (h : startsWith c.2 s = true) (h' : startsWith c'.2 s = true) : c = c' := by
  rw [startsWith, List.isPrefixOf_iff_prefix] at h h'
  rcases List.prefix_or_prefix_of_prefix h h' with hpre | hpre
  · exact openings_apart c hc c' hc' hpre
  · exact (openings_apart c' hc' c hc hpre).symm

theorem closedBy_unique {tag d d' s : Bytes} (h : ClosedBy tag d) (h' : ClosedBy tag d') (hd : d <+: s)
    (hd' : d' <+: s) : d = d' := by
  have hle : ∀ {x y : Bytes}, ClosedBy tag x → ClosedBy tag y → x <+: y → x = y := by
    rintro x y ⟨⟨b, rfl⟩, -⟩ ⟨-, hlast⟩ ⟨r, rfl⟩
    rw [hlast b r rfl, List.append_nil]
  rcases List.prefix_or_prefix_of_prefix hd hd' with hpre | hpre
  · exact hle h h' hpre
  · exact (hle h' h hpre).symm

/-- The code finds the text's first block, and nothing where there is none. -/
theorem findNextDsmlToolBlock_iff {p before d rest : Bytes} :
    findNextDsmlToolBlock p = some { start := before.length, block := d, rest } ∧ before = p.take before.length ↔
      FirstBlock p before d rest := by
  have hbest := findNextDsmlToolBlock_best p
  constructor
  · rintro ⟨hfind, hbefore⟩
    rw [hfind] at hbest
    obtain ⟨⟨-, hdrop⟩, hblock, hfirst⟩ := hbest
    refine ⟨?_, hblock, hfirst⟩
    calc p = p.take before.length ++ p.drop before.length := (List.take_append_drop _ _).symm
      _ = before ++ d ++ rest := by rw [← hbefore, hdrop, List.append_assoc]
  · rintro ⟨htext, ⟨c, hc, hopen, hby⟩, hfirst⟩
    have hdrop : p.drop before.length = d ++ rest := by rw [htext, List.append_assoc, List.drop_left]
    have hat : OpensAt p c before.length := by
      rw [OpensAt, hdrop]
      exact ⟨hopen, hby.1.isInfix.trans (List.prefix_append d rest).isInfix⟩
    refine ⟨?_, by rw [htext, List.append_assoc, List.take_left]⟩
    cases hfind : findNextDsmlToolBlock p with
    | none =>
      rw [hfind] at hbest
      exact absurd hat (hbest c hc _)
    | some f =>
      rw [hfind] at hbest
      obtain ⟨⟨-, hdrop'⟩, ⟨c', hc', hopen', hby'⟩, hfirst'⟩ := hbest
      have hat' : OpensAt p c' f.start := by
        rw [OpensAt, hdrop']
        exact ⟨hopen', hby'.1.isInfix.trans (List.prefix_append f.block f.rest).isInfix⟩
      have hstart : f.start = before.length := by
        refine le_antisymm ?_ ?_
        · by_contra hlt
          exact hfirst' c hc _ (by omega) hat
        · by_contra hlt
          exact hfirst c' hc' _ (by omega) hat'
      rw [hstart, hdrop] at hdrop'
      rw [← hdrop'] at hopen'
      obtain rfl := opening_unique hc hc' hopen hopen'
      have hblock : d = f.block :=
        closedBy_unique hby hby' (List.prefix_append d rest) (hdrop' ▸ List.prefix_append f.block f.rest)
      rw [← hblock] at hdrop'
      have hrest : rest = f.rest := List.append_cancel_left hdrop'
      cases f
      simp_all

/-! ## The parts -/

/-- The blocks the rounds find. -/
def textBlocks : Nat → Bytes → List Bytes
  | 0, _ => []
  | fuel + 1, p =>
    match findNextDsmlToolBlock p with
    | none => []
    | some f => f.block :: textBlocks fuel f.rest

/-- A block takes something off the text. -/
theorem findNextDsmlToolBlock_rest {p : Bytes} {f : FoundBlock} (h : findNextDsmlToolBlock p = some f) :
    f.rest.length < p.length ∧ FirstBlock p (p.take f.start) f.block f.rest := by
  have hbest := findNextDsmlToolBlock_best p
  rw [h] at hbest
  obtain ⟨⟨hle, hdrop⟩, ⟨c, hc, -, ⟨b, hb⟩, -⟩, -⟩ := hbest
  have hstart : (p.take f.start).length = f.start := List.length_take_of_le hle
  have hfirst : FirstBlock p (p.take f.start) f.block f.rest :=
    findNextDsmlToolBlock_iff.mp ⟨by rw [hstart]; exact h, by rw [hstart]⟩
  refine ⟨?_, hfirst⟩
  have hpos : 0 < (endTag c.1).length := by
    cases c.1 <;> decide
  have hlen := congrArg List.length hdrop
  rw [List.length_drop, List.length_append, ← hb, List.length_append] at hlen
  omega

theorem mem_textBlocks {fuel : Nat} {p d : Bytes} (hfuel : p.length < fuel) : d ∈ textBlocks fuel p ↔ Cut d p := by
  induction fuel generalizing p with
  | zero => omega
  | succ fuel ih =>
    unfold textBlocks
    cases hfind : findNextDsmlToolBlock p with
    | none =>
      refine ⟨fun h => absurd h List.not_mem_nil, fun h => ?_⟩
      have hnot : ∀ {b x r}, ¬FirstBlock p b x r := fun hf => by
        rw [(findNextDsmlToolBlock_iff.mpr hf).1] at hfind
        cases hfind
      cases h with
      | here h => exact absurd h hnot
      | later h _ => exact absurd h hnot
    | some f =>
      obtain ⟨hlt, hfirst⟩ := findNextDsmlToolBlock_rest hfind
      have hsame : ∀ {b x r}, FirstBlock p b x r → x = f.block ∧ r = f.rest := fun hf => by
        have := (findNextDsmlToolBlock_iff.mpr hf).1
        rw [hfind] at this
        obtain rfl := Option.some.inj this
        exact ⟨rfl, rfl⟩
      rw [List.mem_cons, ih (by omega)]
      constructor
      · rintro (rfl | h)
        · exact .here hfirst
        · exact .later hfirst h
      · intro h
        cases h with
        | here h => exact .inl (hsame h).1
        | later h hrest => exact .inr ((hsame h).2 ▸ hrest)

end Ds4.Server
