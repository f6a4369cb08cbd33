import Ds4.Runs
import Ds4.Server.ToolMapSection
import Ds4.Server.ToolMemoryRuns

/- The tool-id map over whole runs of a server: puts, lookups, and sections measured,
   written and loaded, in any order.

   PROVED here: in every state reached a text's section is written as long as it was
   measured, and loads back as the pairs it was written for; all remembered blocks
   that stand in the text are among those pairs exactly where each is also a block
   the text is cut into (`tool_map_persists`).

   A block whose value quotes its own end tag is read whole by the parser and cut
   short by the walk, so the map loses it (`quoted_end_lost`). -/
namespace Ds4.Server
open Ds4 Bytes Runs

/-! ## Marks over the memory's operations -/

/-- The walks' number stays, and no mark gets past a bound. -/
structure KeepsMarks (m m' : ToolMemory) : Prop where
  scanClock : m'.scanClock = m.scanClock
  marks : ∀ n, MarksLe m n → MarksLe m' n

section
variable {m m' m'' : ToolMemory} {id d : Bytes}

theorem KeepsMarks.refl (m : ToolMemory) : KeepsMarks m m := ⟨rfl, fun _ h => h⟩

theorem KeepsMarks.trans (h : KeepsMarks m m') (h' : KeepsMarks m' m'') : KeepsMarks m m'' :=
  ⟨h'.scanClock.trans h.scanClock, fun n hn => h'.marks n (h.marks n hn)⟩

/-- A block put in another's place, or as a new one, with a mark no later than those there. -/
theorem marksLe_insert {n k : Nat} {b : ToolMemoryBlock} (h : MarksLe m n) (hb : b.seen ≤ n) :
    ∀ x c, (m.blockAt.insert k b).lookup x = some c → c.seen ≤ n := by
  intro x c hc
  rw [lookup_insert_if] at hc
  split at hc
  next =>
    obtain rfl := Option.some.inj hc
    exact hb
  next => exact h x c hc

theorem marksLe_erase {n k : Nat} (h : MarksLe m n) : ∀ x c, (m.blockAt.erase k).lookup x = some c → c.seen ≤ n := by
  intro x c hc
  rw [lookup_erase_if] at hc
  split at hc
  next => cases hc
  next => exact h x c hc

theorem removeEntry_keepsMarks (h : Nat) : KeepsMarks m (toolMemoryRemoveEntry m h) := by
  unfold toolMemoryRemoveEntry
  split
  next => exact .refl m
  next e he =>
    simp only []
    split
    next => exact ⟨rfl, fun _ hn => hn⟩
    next b hb =>
      unfold toolMemoryReleaseBlock
      split
      next => exact ⟨rfl, fun n hn => marksLe_insert hn (hn e.block b hb)⟩
      next => exact ⟨rfl, fun n hn => marksLe_erase hn⟩

theorem pruneLoop_keepsMarks (fuel : Nat) : KeepsMarks m (pruneLoop fuel m) := by
  induction fuel generalizing m with
  | zero => exact .refl m
  | succ fuel ih =>
    unfold pruneLoop
    split
    next =>
      split
      next tail _ => exact (removeEntry_keepsMarks tail).trans ih
      next => exact .refl m
    next => exact .refl m

theorem getBlock_keepsMarks (m : ToolMemory) (d : Bytes) : KeepsMarks m (toolMemoryGetBlock m d).1 := by
  unfold toolMemoryGetBlock
  split
  next => exact .refl m
  next => exact ⟨rfl, fun n hn => marksLe_insert hn (Nat.zero_le n)⟩

theorem newEntry_keepsMarks (m : ToolMemory) (id d : Bytes) (source : ToolMemorySource) :
    KeepsMarks m (toolMemoryNewEntry m id d source) := by
  have h := getBlock_keepsMarks m d
  unfold toolMemoryNewEntry
  revert h
  generalize toolMemoryGetBlock m d = r
  obtain ⟨m', k⟩ := r
  intro h
  simp only []
  split
  next => exact h
  next b hb => exact h.trans ⟨rfl, fun n hn => marksLe_insert hn (hn k b hb)⟩

theorem put_keepsMarks (m : ToolMemory) (id d : Bytes) (source : ToolMemorySource) :
    KeepsMarks m (toolMemoryPut m id d source) := by
  have hentry : KeepsMarks m (putEntry m id d source) := by
    unfold putEntry
    split
    next => exact newEntry_keepsMarks m id d source
    next h _ =>
      split
      next => exact .refl m
      next e he =>
        split
        next => exact ⟨rfl, fun _ hn => hn⟩
        next => exact (removeEntry_keepsMarks h).trans (newEntry_keepsMarks _ id d source)
  unfold toolMemoryPut
  split
  next => exact .refl m
  next => exact hentry.trans (pruneLoop_keepsMarks _)

theorem lookup_keepsMarks (m : ToolMemory) (id : Bytes) : KeepsMarks m (toolMemoryLookup m id).1 := by
  unfold toolMemoryLookup
  split
  next => exact .refl m
  next =>
    split
    next => exact .refl m
    next =>
      split
      next => exact .refl m
      next => exact ⟨rfl, fun _ hn => hn⟩

end

/-! ## Steps -/

inductive ReplayOp where
  | put (id dsml : Bytes) (source : ToolMemorySource)
  | lookup (id : Bytes)
  | size (text : Bytes)
  | write (fp : Sink) (text : Bytes)
  | load (fp : Bytes) (wanted : Option (List Bytes))

def replayStep (s : ReplayServer) : ReplayOp → ReplayServer
  | .put id dsml source => toolMemoryPutSource s id dsml source
  | .lookup id => if s.disableExactDsmlToolReplay then s else { s with toolMem := (toolMemoryLookup s.toolMem id).1 }
  | .size text => (kvToolMapSerializedSize s text).1
  | .write fp text => (kvToolMapWrite s fp text).1
  | .load fp wanted => (kvToolMapLoadFromPos s fp wanted).1

/-- What is put are C strings, the id of 256 bytes at most. -/
def PutsStrings : ReplayOp → Prop
  | .put id dsml _ => (0 : UInt8) ∉ id ∧ (0 : UInt8) ∉ dsml ∧ id.length ≤ 256
  | _ => True

/-- What holds in every state reached. The memory's byte limit is the default one:
    the server never sets it. -/
structure Kept (disabled : Bool) (maxEntries : Int) (s : ReplayServer) : Prop where
  consistent : Consistent s.toolMem
  fits : Fits s.toolMem
  marks : MarksLe s.toolMem s.toolMem.scanClock
  maxEntries : s.toolMem.maxEntries = maxEntries
  maxBytes : s.toolMem.maxBytes = 0
  strings : ∀ id d, (id, d) ∈ contents s.toolMem → (0 : UInt8) ∉ id ∧ (0 : UInt8) ∉ d ∧ id.length ≤ 256
  flag : s.disableExactDsmlToolReplay = disabled
  off : disabled = true → contents s.toolMem = []

section
variable {disabled : Bool} {maxEntries : Int} {s : ReplayServer} {id d text : Bytes}

theorem kept_start (disabled : Bool) (maxEntries : Int) :
    Kept disabled maxEntries (emptyServer maxEntries 0 disabled) where
  consistent := consistent_empty maxEntries 0
  fits := fits_of_nil (consistent_empty maxEntries 0) rfl
  marks k b hb := by cases hb
  maxEntries := rfl
  maxBytes := rfl
  strings id d h := absurd h List.not_mem_nil
  flag := rfl
  off _ := rfl

theorem Kept.put (source : ToolMemorySource) (h : Kept disabled maxEntries s) (hid : (0 : UInt8) ∉ id)
    (hd : (0 : UInt8) ∉ d) (hlen : id.length ≤ 256) : Kept disabled maxEntries (toolMemoryPutSource s id d source) := by
  unfold toolMemoryPutSource
  split
  next => exact h
  next hgo =>
    rw [not_or, not_or] at hgo
    obtain ⟨hon, hidne, hdne⟩ := hgo
    have hput : toolMemoryPut s.toolMem id d source = toolMemoryPrune (putEntry s.toolMem id d source) :=
      if_neg (not_or.mpr ⟨hidne, hdne⟩)
    obtain ⟨hc, hcon, hlim⟩ := putEntry_spec source h.consistent hidne hdne
    obtain ⟨hpc, hpf, hpp, hpl⟩ := prune_spec hc
    have hlim' := hlim.trans hpl
    rw [← hput] at hpc hpf hpp hlim'
    have hmarks := put_keepsMarks s.toolMem id d source
    refine ⟨hpc, hpf, ?_, hlim'.1.trans h.maxEntries, hlim'.2.trans h.maxBytes, fun i x hin => ?_, h.flag, fun hoff => ?_⟩
    · rw [hmarks.scanClock]
      exact hmarks.marks _ h.marks
    · have hold := hpp.subset hin
      rw [hcon, mem_promote] at hold
      rcases hold with heq | ⟨hold, -⟩
      · obtain ⟨rfl, rfl⟩ := Prod.mk.inj heq
        exact ⟨hid, hd, hlen⟩
      · exact h.strings i x hold
    · exact absurd (h.flag.trans hoff) hon

theorem Kept.lookup (h : Kept disabled maxEntries s) (id : Bytes) :
    Kept disabled maxEntries { s with toolMem := (toolMemoryLookup s.toolMem id).1 } := by
  obtain ⟨hc, hlim, hres⟩ := lookup_spec h.consistent id
  have hmarks := lookup_keepsMarks s.toolMem id
  -- a lookup reorders the contents at most
  have hsub : ∀ p ∈ contents (toolMemoryLookup s.toolMem id).1, p ∈ contents s.toolMem := by
    obtain ⟨-, hsame, -⟩ | ⟨x, source, -, hin, hcon⟩ := hres
    · rw [hsame]
      exact fun p hp => hp
    · intro p hp
      rw [hcon, mem_promote] at hp
      rcases hp with rfl | ⟨hp, -⟩
      · exact hin
      · exact hp
  refine ⟨hc, lookup_fits id h.fits, ?_, hlim.1.trans h.maxEntries, hlim.2.trans h.maxBytes, fun i x hin => ?_, h.flag,
    fun hoff => ?_⟩
  · change MarksLe (toolMemoryLookup s.toolMem id).1 (toolMemoryLookup s.toolMem id).1.scanClock
    rw [hmarks.scanClock]
    exact hmarks.marks _ h.marks
  · exact h.strings i x (hsub _ hin)
  · refine List.eq_nil_iff_forall_not_mem.mpr fun p hp => ?_
    have := hsub p hp
    rw [h.off hoff] at this
    exact absurd this List.not_mem_nil

/-- A walk keeps it all. -/
theorem Kept.marked {m : ToolMemory} (h : Kept disabled maxEntries s) (hmarked : Marked (nextScan s.toolMem) m)
    (hmarks : MarksLe m (nextScan s.toolMem).scanClock) : Kept disabled maxEntries { s with toolMem := m } := by
  have hcon : contents m = contents s.toolMem := hmarked.contents
  refine ⟨hmarked.consistent (nextScan_consistent h.consistent), hmarked.fits h.fits, ?_,
    hmarked.limits.1.trans h.maxEntries, hmarked.limits.2.trans h.maxBytes, ?_, h.flag, ?_⟩
  · change MarksLe m m.scanClock
    rw [hmarked.scanClock]
    exact hmarks
  · rw [hcon]
    exact h.strings
  · rw [hcon]
    exact h.off

theorem Kept.walk {σ : Type} (text : Bytes) (step : Bytes → Bytes → Nat → σ → σ × Bool) (acc : σ)
    (h : Kept disabled maxEntries s) :
    Kept disabled maxEntries { s with toolMem :=
      (scanBlocks step (nextScan s.toolMem).scanClock (text.length + 1) (nextScan s.toolMem) text acc).1 } := by
  obtain ⟨hmarked, hmarks, -⟩ := walk_spec text step acc h.consistent h.marks
  exact h.marked hmarked hmarks

theorem Kept.measure (text : Bytes) (h : Kept disabled maxEntries s) :
    Kept disabled maxEntries { s with toolMem := (kvToolMapMeasure s.toolMem text).1 } :=
  h.walk text measureEntry (0, kvToolMapHeader)

theorem Kept.size (h : Kept disabled maxEntries s) : Kept disabled maxEntries (kvToolMapSerializedSize s text).1 := by
  unfold kvToolMapSerializedSize
  split
  next => exact h
  next => exact h.measure text

theorem Kept.write (fp : Sink) (h : Kept disabled maxEntries s) :
    Kept disabled maxEntries (kvToolMapWrite s fp text).1 := by
  unfold kvToolMapWrite
  split
  next => exact h
  next =>
    have hm := h.measure text
    revert hm
    generalize kvToolMapMeasure s.toolMem text = r
    obtain ⟨m, res⟩ := r
    intro hm
    split
    next heq =>
      obtain ⟨rfl, -⟩ := Prod.mk.inj heq
      exact hm
    next heq =>
      obtain ⟨rfl, -⟩ := Prod.mk.inj heq
      exact hm
    next count bytes _ heq =>
      obtain ⟨rfl, -⟩ := Prod.mk.inj heq
      simp only []
      split
      next => exact hm.walk text writeEntry _
      next =>
        refine hm.marked (.refl _) fun k b hb => ?_
        exact (hm.marks k b hb).trans (Nat.le_succ _)

theorem length_cstr_le (s : Bytes) : (cstr s).length ≤ s.length := (List.takeWhile_prefix _).length_le

theorem Kept.loadRecords (wanted : Option (List Bytes)) (n : Nat) {fp : Bytes} {loaded : Nat}
    (h : Kept disabled maxEntries s) : Kept disabled maxEntries (loadRecords wanted n s fp loaded).1 := by
  induction n generalizing s fp loaded with
  | zero => exact h
  | succ n ih =>
    unfold Server.loadRecords
    split
    next => exact h
    next =>
      simp only []
      split
      next => exact h
      next hok =>
        split
        next => exact h
        next =>
          split
          next =>
            -- what is put are C strings, the id no longer than the length read
            refine ih (h.put .disk (cstr_no_nul _) (cstr_no_nul _) ?_)
            have hle := (length_cstr_le ((fp.drop 8).take (Store.leGet (fp.take 4)))).trans (List.length_take_le _ _)
            omega
          next => exact ih h

theorem Kept.load (fp : Bytes) (wanted : Option (List Bytes)) (h : Kept disabled maxEntries s) :
    Kept disabled maxEntries (kvToolMapLoadFromPos s fp wanted).1 := by
  unfold kvToolMapLoadFromPos
  split
  next => exact h
  next =>
    simp only []
    split
    next => exact h
    next => exact h.loadRecords wanted _

theorem replayStep_kept (s : ReplayServer) (op : ReplayOp) (h : Kept disabled maxEntries s) (hop : PutsStrings op) :
    Kept disabled maxEntries (replayStep s op) := by
  cases op with
  | put id dsml source => exact h.put source hop.1 hop.2.1 hop.2.2
  | lookup id =>
    have hstep : replayStep s (.lookup id) =
        if s.disableExactDsmlToolReplay then s else { s with toolMem := (toolMemoryLookup s.toolMem id).1 } := rfl
    rw [hstep]
    split
    next => exact h
    next => exact h.lookup id
  | size text => exact h.size
  | write fp text => exact h.write fp
  | load fp wanted => exact h.load fp wanted

/-- Every state reached from the empty server. -/
theorem run_kept_server (disabled : Bool) (maxEntries : Int) {ops : List ReplayOp} (hops : ∀ op ∈ ops, PutsStrings op) :
    Kept disabled maxEntries (run replayStep (emptyServer maxEntries 0 disabled) ops) := by
  have hadmitted : Admitted replayStep (fun _ op => PutsStrings op) (emptyServer maxEntries 0 disabled) ops :=
    admitted_iff.mpr fun before op after heq => hops op (by rw [heq]; simp)
  exact hadmitted.invariant replayStep_kept (kept_start disabled maxEntries)

/-! ## What is persisted -/

theorem Kept.storable (h : Kept disabled maxEntries s) {p : Bytes × Bytes} (hp : p ∈ contents s.toolMem) : Storable p := by
  obtain ⟨id, d⟩ := p
  obtain ⟨hid, hd, hlen⟩ := h.strings id d hp
  obtain ⟨x, -, hpair⟩ := (mem_contents h.consistent).mp hp
  obtain ⟨e, he, heid⟩ := Option.map_eq_some_iff.mp (pairOf_id hpair)
  obtain ⟨k, -, hk⟩ := pairOf_block hpair
  obtain ⟨b, hb, hbd⟩ := Option.map_eq_some_iff.mp hk
  refine ⟨heid ▸ (h.consistent.entrySize x e he).1, hlen, hid, hbd ▸ (h.consistent.blockSize k b hb).1, ?_, hd⟩
  have hbytes := h.fits.2
  rw [toolMemoryMaxBytes, h.maxBytes] at hbytes
  exact (dsml_le_bytes h.consistent hp).trans hbytes

theorem Kept.countable (text : Bytes) (h : Kept disabled maxEntries s) (hmax : maxEntries ≤ 2147483647) :
    Countable (emitted s.toolMem text) := by
  refine ⟨fun p hp => h.storable ((mem_emitted h.consistent).mp hp).1, ?_⟩
  have hfits := h.fits.1
  have hlen := emitted_length text h.consistent
  rw [toolMemoryMaxEntries, h.maxEntries] at hfits
  split at hfits <;> omega

/-- The text's section keeps the pairs `ps`: it is written in the length announced, it
    has every remembered pair whose block stands in the text once, and an empty memory
    with room for the pairs holds them and no others after it is loaded. -/
structure Persists (s : ReplayServer) (text : Bytes) (ps : List (Bytes × Bytes)) : Prop where
  written : ∀ fp : Sink, (mapSection ps).length ≤ fp.room →
    (kvToolMapWrite s fp text).2 = (fp.put (mapSection ps), some (mapSection ps).length)
  size : (kvToolMapSerializedSize s text).2 = some (mapSection ps).length
  complete : ∀ id d, (id, d) ∈ contents s.toolMem → d <:+: text → ps.count (id, d) = 1
  restored : ∀ maxEntries maxBytes, ps.length ≤ toolMemoryMaxEntries (.empty maxEntries maxBytes) →
    (ps.map pairCost).sum ≤ toolMemoryMaxBytes (.empty maxEntries maxBytes) → ∀ id d,
      recalled (kvToolMapLoadFromPos (emptyServer maxEntries maxBytes false) (mapSection ps) none).1.toolMem id = some d ↔
        (id, d) ∈ ps

theorem emitted_written (text : Bytes) (fp : Sink) (h : Kept disabled maxEntries s) (hmax : maxEntries ≤ 2147483647)
    (hroom : (mapSection (emitted s.toolMem text)).length ≤ fp.room) :
    (kvToolMapWrite s fp text).2 =
      (fp.put (mapSection (emitted s.toolMem text)), some (mapSection (emitted s.toolMem text)).length) := by
  by_cases hgo : s.disableExactDsmlToolReplay = true ∨ text = []
  · have hnone : emitted s.toolMem text = [] := by
      refine List.eq_nil_iff_forall_not_mem.mpr fun p hp => ?_
      obtain ⟨hin, hcut⟩ := (mem_emitted h.consistent).mp hp
      rcases hgo with hoff | rfl
      · rw [h.off (h.flag.symm.trans hoff)] at hin
        exact absurd hin List.not_mem_nil
      · have hnil : textBlocks 1 [] = [] := by decide
        have hblock := (mem_textBlocks (List.length_nil.trans_lt Nat.one_pos)).mpr hcut
        rw [hnil] at hblock
        exact absurd hblock List.not_mem_nil
    rw [kvToolMapWrite, if_pos hgo, hnone]
    simp [mapSection, Sink.put]
  · rw [not_or, Bool.not_eq_true] at hgo
    exact write_spec hgo.1 hgo.2 h.consistent h.marks (h.countable text hmax) hroom

theorem emitted_size (h : Kept disabled maxEntries s) (hmax : maxEntries ≤ 2147483647) :
    (kvToolMapSerializedSize s text).2 = some (mapSection (emitted s.toolMem text)).length := by
  have hw := emitted_written text { data := [], room := _ } h hmax (Nat.le_refl _)
  unfold kvToolMapWrite at hw
  unfold kvToolMapSerializedSize
  split
  next hgo =>
    rw [if_pos hgo] at hw
    exact (Prod.mk.inj hw).2
  next =>
    obtain ⟨hres, -⟩ := measure_spec h.consistent h.marks (h.countable text hmax)
    simp only [hres, Option.map_some]

theorem emitted_restored (h : Kept disabled maxEntries s) (hmax : maxEntries ≤ 2147483647) {maxE : Int} {maxB : Nat}
    (hentries : (emitted s.toolMem text).length ≤ toolMemoryMaxEntries (.empty maxE maxB))
    (hbytes : ((emitted s.toolMem text).map pairCost).sum ≤ toolMemoryMaxBytes (.empty maxE maxB)) (id d : Bytes) :
    recalled (kvToolMapLoadFromPos (emptyServer maxE maxB false) (mapSection (emitted s.toolMem text)) none).1.toolMem id
      = some d ↔ (id, d) ∈ emitted s.toolMem text := by
  obtain ⟨hc, hcon⟩ := load_section (h.countable text hmax) (emitted_keys h.consistent) hentries hbytes
  rw [recall_eq hc, hcon, List.mem_reverse]

/-- Where a section keeps what it should, its pairs are those of the text's blocks. -/
theorem Persists.emitted {ps : List (Bytes × Bytes)} (hp : Persists s text ps) (h : Kept disabled maxEntries s)
    (hmax : maxEntries ≤ 2147483647) {id d : Bytes} (hin : (id, d) ∈ ps) : (id, d) ∈ emitted s.toolMem text := by
  -- the two sections are the bytes one write appends
  have hsame : mapSection ps = mapSection (Server.emitted s.toolMem text) := by
    have hw := hp.written { data := [], room := (mapSection ps).length + (mapSection (Server.emitted s.toolMem text)).length }
      (Nat.le_add_right _ _)
    rw [emitted_written text _ h hmax (Nat.le_add_left _ _)] at hw
    exact (congrArg Sink.data (Prod.mk.inj hw).1).symm
  have hroom : ∀ n b : Nat, n ≤ toolMemoryMaxEntries (.empty (n + 1 : Nat) b) ∧
      b ≤ toolMemoryMaxBytes (.empty (n + 1 : Nat) b) := by
    intro n b
    have hpos : ((n + 1 : Nat) : Int) > 0 := by omega
    have hentries : toolMemoryMaxEntries (.empty (n + 1 : Nat) b) = n + 1 := if_pos hpos
    refine ⟨by omega, ?_⟩
    by_cases hb : b > 0
    · have hbytes : toolMemoryMaxBytes (.empty (n + 1 : Nat) b) = b := if_pos hb
      omega
    · omega
  obtain ⟨hn, hb⟩ := hroom (ps.length + (Server.emitted s.toolMem text).length)
    ((ps.map pairCost).sum + ((Server.emitted s.toolMem text).map pairCost).sum)
  have hload := (hp.restored _ _ ((Nat.le_add_right _ _).trans hn) ((Nat.le_add_right _ _).trans hb) id d).mpr hin
  rw [hsame] at hload
  exact (emitted_restored h hmax ((Nat.le_add_left _ _).trans hn) ((Nat.le_add_left _ _).trans hb) id d).mp hload

theorem persists_iff (h : Kept disabled maxEntries s) (hmax : maxEntries ≤ 2147483647) (text : Bytes) :
    (∃ ps, Persists s text ps) ↔ ∀ id d, (id, d) ∈ contents s.toolMem → d <:+: text → Cut d text := by
  constructor
  · rintro ⟨ps, hp⟩ id d hin hd
    have hone := hp.complete id d hin hd
    have hps : (id, d) ∈ ps := List.count_pos_iff.mp (by omega)
    exact ((mem_emitted h.consistent).mp (hp.emitted h hmax hps)).2
  · intro hcut
    refine ⟨emitted s.toolMem text, fun fp hroom => emitted_written text fp h hmax hroom, emitted_size h hmax, ?_, ?_⟩
    · intro id d hin hd
      have hnodup : (emitted s.toolMem text).Nodup := (emitted_keys h.consistent).of_map _
      exact List.count_eq_one_of_mem hnodup ((mem_emitted h.consistent).mpr ⟨hin, hcut id d hin hd⟩)
    · exact fun maxE maxB hentries hbytes id d => emitted_restored h hmax hentries hbytes id d

end

/-- In every state reached the section of a text keeps what it should exactly where
    every remembered block that stands in the text is a block the text is cut into. -/
theorem tool_map_persists (disabled : Bool) (maxEntries : Int) (hmax : maxEntries ≤ 2147483647)
    (ops : List ReplayOp) (hops : ∀ op ∈ ops, PutsStrings op) (text : Bytes) :
    (∃ ps, Persists (run replayStep (emptyServer maxEntries 0 disabled) ops) text ps) ↔
      ∀ id d, (id, d) ∈ contents (run replayStep (emptyServer maxEntries 0 disabled) ops).toolMem →
        d <:+: text → Cut d text :=
  persists_iff (run_kept_server disabled maxEntries hops) hmax text

/-- One call, remembered and saved with the text it stands in. -/
def savedCall (text : Bytes) : List ReplayOp := [.put [99] text .ram]

theorem savedCall_strings (text : Bytes) (h : (0 : UInt8) ∉ text) : ∀ op ∈ savedCall text, PutsStrings op := by
  intro op hop
  rw [List.mem_singleton.mp hop]
  exact ⟨by decide, h, by decide⟩

def plainCall : Bytes := utf8 "<tool_calls><invoke name=\"w\"></invoke></tool_calls>"

theorem tool_map_persists_sample :
    ∃ ps, Persists (run replayStep (emptyServer 0 0 false) (savedCall plainCall)) plainCall ps := by
  refine (tool_map_persists false 0 (by decide) (savedCall plainCall)
    (savedCall_strings plainCall (by decide +kernel)) plainCall).mpr fun id d hin _ => ?_
  have hcontents : contents (run replayStep (emptyServer 0 0 false) (savedCall plainCall)).toolMem = [([99], plainCall)] := by
    decide +kernel
  rw [hcontents, List.mem_singleton] at hin
  rw [(Prod.mk.inj hin).2, ← mem_textBlocks (Nat.lt_succ_self _)]
  decide +kernel

/-- A call whose value quotes the end tag of its block. -/
def quotedEnd : Bytes :=
  utf8 ("<tool_calls><invoke name=\"w\"><parameter name=\"c\" string=\"true\"></tool_calls></parameter></invoke>" ++
    "</tool_calls>")

/-- The parser reads the block whole, and its map is not kept with its own text. -/
theorem quoted_end_lost :
    ((parseGeneratedMessageEx quotedEnd false).bind ParsedMessage.rawDsml = some quotedEnd) ∧
      ¬∃ ps, Persists (run replayStep (emptyServer 0 0 false) (savedCall quotedEnd)) quotedEnd ps := by
  refine ⟨by decide +kernel, fun hex => ?_⟩
  have hkept := run_kept_server false 0 (savedCall_strings quotedEnd (by decide +kernel))
  have hcontents : contents (run replayStep (emptyServer 0 0 false) (savedCall quotedEnd)).toolMem = [([99], quotedEnd)] := by
    decide +kernel
  have hin : ([99], quotedEnd) ∈ contents (run replayStep (emptyServer 0 0 false) (savedCall quotedEnd)).toolMem := by
    rw [hcontents]
    exact List.mem_singleton.mpr rfl
  have hcut := (persists_iff hkept (by decide) quotedEnd).mp hex [99] quotedEnd hin List.infix_rfl
  rw [← mem_textBlocks (Nat.lt_succ_self _)] at hcut
  revert hcut
  decide +kernel

end Ds4.Server
