import Ds4.Server.ToolMapBlocks
import Ds4.Server.ToolMemoryInvariant

/- What one walk over a text does to the tool memory and which entries it visits.

   PROVED here: a walk changes marks only (`Marked`), and visits the entries of the
   remembered blocks of the text, each block at its first place (`scanBlocks_spec`);
   so the pairs it visits are the remembered ones whose text is a block of the text,
   each id once (`mem_emitted`, `emitted_keys`). -/
namespace Ds4.Server
open Ds4 Bytes

/-! ## Marks -/

/-- The entries a handle's block lists. -/
def handlesAt (m : ToolMemory) (k : Nat) : List Nat := ((m.blockAt.lookup k).map (·.entries)).getD []

def entriesAt (m : ToolMemory) (k : Nat) : List (Bytes × Bytes × Nat) :=
  ((m.blockAt.lookup k).map (blockEntries m)).getD []

/-- What a walk leaves as it was: everything but the marks. -/
structure Marked (m m' : ToolMemory) : Prop where
  consistent : Consistent m → Consistent m'
  contents : contents m' = contents m
  byBlock : m'.byBlock = m.byBlock
  entries : ∀ k, entriesAt m' k = entriesAt m k
  scanClock : m'.scanClock = m.scanClock
  fits : Fits m → Fits m'
  limits : SameLimits m m'

variable {m m' m'' : ToolMemory} {k scan : Nat} {b : ToolMemoryBlock}

theorem Marked.refl (m : ToolMemory) : Marked m m where
  consistent := id
  contents := rfl
  byBlock := rfl
  entries _ := rfl
  scanClock := rfl
  fits := id
  limits := ⟨rfl, rfl⟩

theorem Marked.trans (h : Marked m m') (h' : Marked m' m'') : Marked m m'' where
  consistent := h'.consistent ∘ h.consistent
  contents := h'.contents.trans h.contents
  byBlock := h'.byBlock.trans h.byBlock
  entries k := (h'.entries k).trans (h.entries k)
  scanClock := h'.scanClock.trans h.scanClock
  fits := h'.fits ∘ h.fits
  limits := h.limits.trans h'.limits

theorem markSeen_lookup (x : Nat) :
    (markSeen m k b scan).blockAt.lookup x = if x = k then some { b with seen := scan } else m.blockAt.lookup x :=
  lookup_insert_if _ _ x

theorem markSeen_dsmlOf (hb : m.blockAt.lookup k = some b) (x : Nat) : dsmlOf (markSeen m k b scan) x = dsmlOf m x := by
  rw [dsmlOf, markSeen_lookup]
  split
  next hx => rw [dsmlOf, hx, hb, Option.map_some, Option.map_some]
  next => rfl

/-- A mark keeps the structures in step: the block keeps all they speak of. -/
theorem markSeen_consistent (hb : m.blockAt.lookup k = some b) (hm : Consistent m) :
    Consistent (markSeen m k b scan) := by
  have hdsmlOf : ∀ x, dsmlOf (markSeen m k b scan) x = dsmlOf m x := markSeen_dsmlOf hb
  -- every block has an older self with the same fields but the mark
  have hold : ∀ x c, (markSeen m k b scan).blockAt.lookup x = some c →
      ∃ c', m.blockAt.lookup x = some c' ∧ c = { c' with seen := c.seen } := by
    intro x c hc
    rw [markSeen_lookup] at hc
    split at hc
    next hx =>
      obtain rfl := Option.some.inj hc
      exact ⟨b, by rw [hx, hb], rfl⟩
    next => exact ⟨c, hc, rfl⟩
  refine { hm with
    blockIndex := ?blockIndex, home := ?home, refs := ?refs, blockSize := ?blockSize, total := ?total,
    freshBlock := ?freshBlock }
  case blockIndex =>
    intro d x
    rw [hdsmlOf]
    exact hm.blockIndex d x
  case home =>
    intro h e he
    obtain ⟨c, hc⟩ := hm.home h e he
    rw [markSeen_lookup]
    split
    next => exact ⟨_, rfl⟩
    next => exact ⟨c, hc⟩
  case refs =>
    intro x c hc
    obtain ⟨c', hc', heq⟩ := hold x c hc
    rw [heq]
    exact hm.refs x c' hc'
  case blockSize =>
    intro x c hc
    obtain ⟨c', hc', heq⟩ := hold x c hc
    rw [heq]
    exact hm.blockSize x c' hc'
  case total =>
    have hw : weight (fun _ b => b.bytes) (m.blockAt.insert k { b with seen := scan }) =
        weight (fun _ b => b.bytes) m.blockAt := weight_replace hb rfl
    rw [liveBytes, markSeen, hw]
    exact hm.total
  case freshBlock =>
    intro x c hc
    obtain ⟨c', hc', -⟩ := hold x c hc
    exact hm.freshBlock x c' hc'

theorem markSeen_marked (hb : m.blockAt.lookup k = some b) : Marked m (markSeen m k b scan) := by
  have hdsml : ∀ e, entryDsml (markSeen m k b scan) e = entryDsml m e := fun e => markSeen_dsmlOf hb e.block
  have hpair : pairOf (markSeen m k b scan) = pairOf m := by
    funext h
    simp only [pairOf, hdsml]
    rfl
  refine ⟨markSeen_consistent hb, by rw [contents, hpair]; rfl, rfl, fun x => ?_, rfl, id, ⟨rfl, rfl⟩⟩
  rw [entriesAt, markSeen_lookup]
  split
  next hx =>
    subst hx
    simp [entriesAt, hb, blockEntries, markSeen]
  next => rfl

/-! ## The entries visited -/

section
variable {α σ : Type} [DecidableEq α] {step : Bytes → Bytes → Nat → σ → σ × Bool}

/-- The elements not seen yet, each at its first place. -/
def firsts (seen : List α) : List α → List α
  | [] => []
  | x :: l => if x ∈ seen then firsts seen l else x :: firsts (x :: seen) l

theorem mem_firsts {x : α} {l seen : List α} : x ∈ firsts seen l ↔ x ∈ l ∧ x ∉ seen := by
  induction l generalizing seen with
  | nil => simp [firsts]
  | cons y l ih =>
    unfold firsts
    split
    next hy =>
      rw [ih, List.mem_cons]
      refine and_congr_left fun hx => (or_iff_right ?_).symm
      rintro rfl
      exact hx hy
    next hy =>
      rw [List.mem_cons, ih, List.mem_cons, List.mem_cons]
      by_cases hx : x = y
      · simp [hx, hy]
      · simp [hx]

theorem nodup_firsts (l seen : List α) : (firsts seen l).Nodup := by
  induction l generalizing seen with
  | nil => exact List.nodup_nil
  | cons y l ih =>
    unfold firsts
    split
    next => exact ih seen
    next => exact List.nodup_cons.mpr ⟨fun h => (mem_firsts.mp h).2 List.mem_cons_self, ih (y :: seen)⟩

theorem eachEntry_append (l l' : List (Bytes × Bytes × Nat)) (acc : σ) :
    eachEntry step (l ++ l') acc =
      match eachEntry step l acc with
      | (acc', true) => eachEntry step l' acc'
      | (acc', false) => (acc', false) := by
  induction l generalizing acc with
  | nil => rfl
  | cons e l ih =>
    rw [List.cons_append, eachEntry, eachEntry]
    split
    next => exact ih _
    next => rfl

end

theorem Consistent.findBlock (hm : Consistent m) {d : Bytes} :
    toolMemoryFindBlock m d = some k ↔ dsmlOf m k = some d := by
  unfold toolMemoryFindBlock
  split
  next hd =>
    refine ⟨fun h => (by cases h), fun h => ?_⟩
    obtain ⟨b, hb, hbd⟩ := Option.map_eq_some_iff.mp h
    exact absurd (hbd.trans hd) (hm.blockSize k b hb).1
  next => exact hm.blockIndex d k

/-- The handles of the remembered blocks of the text, in the order they come. -/
def blocksSeen (m : ToolMemory) (seen : List Nat) (fuel : Nat) (p : Bytes) : List Nat :=
  firsts seen ((textBlocks fuel p).filterMap (toolMemoryFindBlock m))

/-- The marks of a walk are those of the blocks it visited. -/
def SeenAre (m : ToolMemory) (scan : Nat) (seen : List Nat) : Prop :=
  ∀ k b, m.blockAt.lookup k = some b → (b.seen = scan ↔ k ∈ seen)

/-- No mark is from a later walk. -/
def MarksLe (m : ToolMemory) (n : Nat) : Prop := ∀ k b, m.blockAt.lookup k = some b → b.seen ≤ n

theorem markSeen_seenAre {seen : List Nat} (h : SeenAre m scan seen) : SeenAre (markSeen m k b scan) scan (k :: seen) := by
  intro x c hc
  rw [markSeen_lookup] at hc
  split at hc
  next hx =>
    obtain rfl := Option.some.inj hc
    simp [hx]
  next hx =>
    rw [h x c hc]
    simp [hx]

theorem markSeen_marksLe (h : MarksLe m scan) : MarksLe (markSeen m k b scan) scan := by
  intro x c hc
  rw [markSeen_lookup] at hc
  split at hc
  next =>
    obtain rfl := Option.some.inj hc
    exact Nat.le_refl _
  next => exact h x c hc

/-- A walk visits the entries of the remembered blocks, each block once. -/
theorem scanBlocks_spec {σ : Type} {step : Bytes → Bytes → Nat → σ → σ × Bool} (fuel : Nat) (p : Bytes) (acc : σ)
    {seen : List Nat} (hm : Consistent m) (hseen : SeenAre m scan seen) (hle : MarksLe m scan) :
    Marked m (scanBlocks step scan fuel m p acc).1 ∧ MarksLe (scanBlocks step scan fuel m p acc).1 scan ∧
      (scanBlocks step scan fuel m p acc).2 =
        eachEntry step ((blocksSeen m seen fuel p).flatMap (entriesAt m)) acc := by
  induction fuel generalizing m p acc seen with
  | zero => exact ⟨.refl m, hle, rfl⟩
  | succ fuel ih =>
    unfold scanBlocks blocksSeen textBlocks
    cases hfind : findNextDsmlToolBlock p with
    | none => exact ⟨.refl m, hle, rfl⟩
    | some f =>
      simp only []
      cases hk : toolMemoryFindBlock m f.block with
      | none =>
        rw [List.filterMap_cons_none hk]
        exact ih _ _ hm hseen hle
      | some k =>
        obtain ⟨b, hb, -⟩ := Option.map_eq_some_iff.mp (hm.findBlock.mp hk)
        rw [List.filterMap_cons_some hk, firsts]
        simp only [hb]
        split
        next hmark =>
          -- the block was visited before
          rw [if_pos ((hseen k b hb).mp hmark)]
          exact ih _ _ hm hseen hle
        next hmark =>
          rw [if_neg fun h => hmark ((hseen k b hb).mpr h), List.flatMap_cons, eachEntry_append]
          have hentries : entriesAt m k = blockEntries m b := by simp [entriesAt, hb]
          have hmarked : Marked m (markSeen m k b scan) := markSeen_marked hb
          rw [hentries]
          cases eachEntry step (blockEntries m b) acc with
          | mk acc' ok =>
            cases ok with
            | false => exact ⟨hmarked, markSeen_marksLe hle, rfl⟩
            | true =>
              obtain ⟨hm', hle', heq⟩ :=
                ih f.rest acc' (hmarked.consistent hm) (markSeen_seenAre hseen) (markSeen_marksLe hle)
              refine ⟨hmarked.trans hm', hle', heq.trans ?_⟩
              rw [funext hmarked.entries]
              have hfindEq : toolMemoryFindBlock (markSeen m k b scan) = toolMemoryFindBlock m := rfl
              rw [blocksSeen, hfindEq]

/-! ## The pairs visited -/

/-- The remembered blocks of a text, as the walk over all of it meets them. -/
def blocksOf (m : ToolMemory) (text : Bytes) : List Nat := blocksSeen m [] (text.length + 1) text

/-- The (id, DSML) pairs of those blocks. -/
def emitted (m : ToolMemory) (text : Bytes) : List (Bytes × Bytes) :=
  ((blocksOf m text).flatMap (handlesAt m)).filterMap (pairOf m)

variable {text : Bytes} {h : Nat}

theorem mem_handlesAt (hm : Consistent m) : h ∈ handlesAt m k ↔ blockOf m h = some k := by
  unfold handlesAt
  cases hb : m.blockAt.lookup k with
  | some b => simpa using (hm.refs k b hb).2.2.2 h
  | none =>
    refine ⟨fun hin => absurd hin List.not_mem_nil, fun hof => ?_⟩
    obtain ⟨e, he, rfl⟩ := Option.map_eq_some_iff.mp hof
    obtain ⟨b, hb'⟩ := hm.home h e he
    rw [hb] at hb'
    cases hb'

theorem nodup_handlesAt (hm : Consistent m) : (handlesAt m k).Nodup := by
  unfold handlesAt
  cases hb : m.blockAt.lookup k with
  | some b => exact (hm.refs k b hb).2.2.1
  | none => exact List.nodup_nil

/-- What a visit sees of a block's entries are their pairs. -/
theorem entriesAt_eq (hm : Consistent m) :
    entriesAt m k = ((handlesAt m k).filterMap (pairOf m)).map fun p => (p.1, p.2, p.2.length) := by
  unfold entriesAt handlesAt
  cases hb : m.blockAt.lookup k with
  | none => rfl
  | some b =>
    simp only [Option.map_some, Option.getD_some, blockEntries]
    rw [List.map_filterMap, List.map_filterMap]
    refine List.filterMap_congr fun x hx => ?_
    obtain ⟨e, he, hek⟩ := Option.map_eq_some_iff.mp (((hm.refs k b hb).2.2.2 x).mp hx)
    have hpair : pairOf m x = some (e.id, b.dsml) := pairOf_eq he (by rw [hek, hb])
    rw [hpair, he, Option.map_some, Option.map_some, (hm.blockSize k b hb).2.1]

theorem visited_eq (hm : Consistent m) (ks : List Nat) :
    ks.flatMap (entriesAt m) = ((ks.flatMap (handlesAt m)).filterMap (pairOf m)).map fun p => (p.1, p.2, p.2.length) := by
  induction ks with
  | nil => rfl
  | cons k ks ih =>
    rw [List.flatMap_cons, List.flatMap_cons, List.filterMap_append, List.map_append, ih, entriesAt_eq hm]

theorem pairOf_block {id d : Bytes} (hp : pairOf m h = some (id, d)) :
    ∃ k, blockOf m h = some k ∧ dsmlOf m k = some d := by
  cases he : m.entryAt.lookup h with
  | none => simp [pairOf, he] at hp
  | some e =>
    simp only [pairOf, he, Option.bind_some, Option.map_eq_some_iff, Prod.mk.injEq] at hp
    obtain ⟨d', hd', -, rfl⟩ := hp
    exact ⟨e.block, by simp [blockOf, he], hd'⟩

theorem mem_blocksOf (hm : Consistent m) : k ∈ blocksOf m text ↔ ∃ d, Cut d text ∧ dsmlOf m k = some d := by
  rw [blocksOf, blocksSeen, mem_firsts, List.mem_filterMap, and_iff_left List.not_mem_nil]
  refine exists_congr fun d => ?_
  rw [mem_textBlocks (Nat.lt_succ_self _), hm.findBlock]

/-- The pairs visited are the remembered ones whose text is a block of the text. -/
theorem mem_emitted (hm : Consistent m) {id d : Bytes} :
    (id, d) ∈ emitted m text ↔ (id, d) ∈ contents m ∧ Cut d text := by
  rw [emitted, List.mem_filterMap]
  constructor
  · rintro ⟨h, hin, hp⟩
    refine ⟨(mem_contents hm).mpr ⟨h, (hm.index id h).mpr (pairOf_id hp), hp⟩, ?_⟩
    obtain ⟨k, hk, hh⟩ := List.mem_flatMap.mp hin
    obtain ⟨d', hcut, hd'⟩ := (mem_blocksOf hm).mp hk
    obtain ⟨k', hk', hd⟩ := pairOf_block hp
    rw [(mem_handlesAt hm).mp hh] at hk'
    obtain rfl := Option.some.inj hk'
    rw [hd'] at hd
    obtain rfl := Option.some.inj hd
    exact hcut
  · rintro ⟨hin, hcut⟩
    obtain ⟨h, -, hp⟩ := (mem_contents hm).mp hin
    obtain ⟨k, hk, hd⟩ := pairOf_block hp
    refine ⟨h, List.mem_flatMap.mpr ⟨k, (mem_blocksOf hm).mpr ⟨d, hcut, hd⟩, (mem_handlesAt hm).mpr hk⟩, hp⟩

/-- No id is visited twice. -/
theorem emitted_keys (hm : Consistent m) : ((emitted m text).map Prod.fst).Nodup := by
  have hhandles : ((blocksOf m text).flatMap (handlesAt m)).Nodup := by
    refine List.nodup_flatMap.mpr ⟨fun k _ => nodup_handlesAt hm, ?_⟩
    refine (nodup_firsts _ []).imp fun {k k'} hne => ?_
    intro h hk hk'
    rw [mem_handlesAt hm] at hk hk'
    rw [hk] at hk'
    exact hne (Option.some.inj hk')
  rw [emitted, List.map_filterMap]
  refine List.Nodup.filterMap (fun h h' id hi hi' => ?_) hhandles
  have hof : ∀ x, id ∈ (pairOf m x).map Prod.fst → idOf m x = some id := by
    intro x hx
    obtain ⟨⟨i, d⟩, hp, rfl⟩ := Option.map_eq_some_iff.mp hx
    exact pairOf_id hp
  exact hm.id_inj (hof h hi) (hof h' hi')

theorem emitted_length (text : Bytes) (hm : Consistent m) : (emitted m text).length ≤ m.entries := by
  have hnodup : (emitted m text).Nodup := (emitted_keys hm).of_map _
  have hsub : emitted m text ⊆ contents m := fun p hp => ((mem_emitted hm).mp hp).1
  calc (emitted m text).length ≤ (contents m).length := hnodup.length_le_of_subset hsub
    _ ≤ m.lru.length := List.length_filterMap_le _ _
    _ = m.entries := hm.count.symm

/-- The texts held are within the bytes held. -/
theorem dsml_le_bytes (hm : Consistent m) {id d : Bytes} (h : (id, d) ∈ contents m) : d.length ≤ m.bytes := by
  obtain ⟨x, -, hp⟩ := (mem_contents hm).mp h
  obtain ⟨k, -, hd⟩ := pairOf_block hp
  obtain ⟨b, hb, rfl⟩ := Option.map_eq_some_iff.mp hd
  have hw := weight_erase (f := fun _ b => b.bytes) hb
  have hsize := (hm.blockSize k b hb).2
  have htotal := hm.total
  rw [liveBytes] at htotal
  omega

end Ds4.Server
