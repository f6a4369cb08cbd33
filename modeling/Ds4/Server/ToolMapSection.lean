import Ds4.Server.ToolMapWalk

/- The bytes of a tool-id map section, and what measuring, writing and loading do
   with them.

   PROVED here: where the counts do not overflow, measuring gives the section's
   length (`measure_spec`) and writing appends the section (`write_spec`); loading a
   section into an empty memory with room for it holds its pairs and no others
   (`load_section`). -/
namespace Ds4.Server
open Ds4 Bytes Store

/-- A record: the two lengths, the id and the DSML. -/
def mapRecord (p : Bytes × Bytes) : Bytes := lePut 4 p.1.length ++ lePut 4 p.2.length ++ p.1 ++ p.2

def mapRecords (ps : List (Bytes × Bytes)) : Bytes := ps.flatMap mapRecord

/-- The section that keeps the pairs; with none to keep there is none. -/
def mapSection (ps : List (Bytes × Bytes)) : Bytes :=
  if ps = [] then [] else utf8 "KTM" ++ [1] ++ lePut 4 ps.length ++ mapRecords ps

/-- A pair as a visit sees it. -/
def asEntry (p : Bytes × Bytes) : Bytes × Bytes × Nat := (p.1, p.2, p.2.length)

theorem length_mapRecord (p : Bytes × Bytes) : (mapRecord p).length = 8 + p.1.length + p.2.length := by
  simp only [mapRecord, List.length_append, length_lePut]

@[simp] theorem mapRecords_nil : mapRecords [] = [] := rfl

@[simp] theorem mapRecords_cons (p : Bytes × Bytes) (ps : List (Bytes × Bytes)) :
    mapRecords (p :: ps) = mapRecord p ++ mapRecords ps := rfl

theorem length_mapSection {ps : List (Bytes × Bytes)} (h : ps ≠ []) :
    (mapSection ps).length = kvToolMapHeader + (mapRecords ps).length := by
  have hmagic : (utf8 "KTM" ++ [1]).length = 4 := by decide
  rw [mapSection, if_neg h, List.length_append, List.length_append, hmagic, length_lePut, kvToolMapHeader]

/-- A pair that a record can hold and a load takes. -/
structure Storable (p : Bytes × Bytes) : Prop where
  id_pos : p.1 ≠ []
  id_le : p.1.length ≤ 256
  id_nul : (0 : UInt8) ∉ p.1
  dsml_pos : p.2 ≠ []
  dsml_le : p.2.length ≤ toolMemoryMaxBytesDefault
  dsml_nul : (0 : UInt8) ∉ p.2

theorem length_mapRecords_le {ps : List (Bytes × Bytes)} (h : ∀ p ∈ ps, Storable p) :
    (mapRecords ps).length ≤ ps.length * 1073741824 := by
  induction ps with
  | nil => simp
  | cons p ps ih =>
    have hp := h p List.mem_cons_self
    have hle := hp.dsml_le
    have hid := hp.id_le
    have := ih fun q hq => h q (List.mem_cons_of_mem _ hq)
    rw [mapRecords_cons, List.length_append, length_mapRecord, List.length_cons]
    rw [toolMemoryMaxBytesDefault] at hle
    omega

/-! ## Measure -/

section
variable {ps : List (Bytes × Bytes)} {fp : Sink}

theorem measure_entries {acc : Nat × Nat} (h : ∀ p ∈ ps, Storable p) (hcount : acc.1 + ps.length ≤ uint32Max)
    (hbytes : acc.2 + (mapRecords ps).length ≤ uint64Max) :
    eachEntry measureEntry (ps.map asEntry) acc = ((acc.1 + ps.length, acc.2 + (mapRecords ps).length), true) := by
  induction ps generalizing acc with
  | nil => rfl
  | cons p ps ih =>
    have hp := h p List.mem_cons_self
    have hid := hp.id_le
    have hd := hp.dsml_le
    rw [List.length_cons] at hcount
    rw [mapRecords_cons, List.length_append, length_mapRecord] at hbytes
    rw [toolMemoryMaxBytesDefault] at hd
    have hfits : ¬(p.1.length > uint32Max ∨ p.2.length > uint32Max) := by
      rw [uint32Max]
      omega
    have hroom : ¬acc.1 = uint32Max := by omega
    have hsum : ¬(uint64Max - acc.2 < 8 ∨ uint64Max - acc.2 - 8 < p.1.length ∨
        uint64Max - acc.2 - 8 - p.1.length < p.2.length) := by omega
    have hstep : measureEntry p.1 p.2 p.2.length acc =
        ((acc.1 + 1, acc.2 + (8 + p.1.length + p.2.length)), true) := by
      rw [measureEntry, if_neg hfits, if_neg hroom, if_neg hsum]
    rw [List.map_cons, asEntry, eachEntry, hstep]
    simp only []
    rw [ih (fun q hq => h q (List.mem_cons_of_mem _ hq)) (by simp only []; omega) (by simp only []; omega),
      List.length_cons, mapRecords_cons, List.length_append, length_mapRecord]
    simp only [Prod.mk.injEq, and_true]
    omega

/-! ## Write -/

/-- The file with the bytes appended. -/
def Sink.put (fp : Sink) (b : Bytes) : Sink := { data := fp.data ++ b, room := fp.room - b.length }

@[simp] theorem Sink.put_room (fp : Sink) (b : Bytes) : (fp.put b).room = fp.room - b.length := rfl

theorem Sink.put_put (fp : Sink) (a b : Bytes) : (fp.put a).put b = fp.put (a ++ b) := by
  simp [Sink.put, Nat.sub_sub]

theorem fwrite_ok {b : Bytes} (h : b.length ≤ fp.room) : fwrite fp b = (fp.put b, true) := by
  simp [fwrite, Sink.put, h]

theorem fwriteAll_ok {bs : List Bytes} (h : bs.flatten.length ≤ fp.room) :
    fwriteAll bs fp = (fp.put bs.flatten, true) := by
  induction bs generalizing fp with
  | nil => simp [fwriteAll, Sink.put]
  | cons b bs ih =>
    rw [List.flatten_cons, List.length_append] at h
    rw [fwriteAll, fwrite_ok (by omega)]
    simp only []
    rw [ih (by rw [Sink.put_room]; omega), Sink.put_put, List.flatten_cons]

theorem write_entries (h : ∀ p ∈ ps, Storable p) (hroom : (mapRecords ps).length ≤ fp.room) :
    eachEntry writeEntry (ps.map asEntry) fp = (fp.put (mapRecords ps), true) := by
  induction ps generalizing fp with
  | nil => simp [eachEntry, Sink.put]
  | cons p ps ih =>
    have hp := h p List.mem_cons_self
    have hid := hp.id_le
    have hd := hp.dsml_le
    rw [toolMemoryMaxBytesDefault] at hd
    have hfits : ¬(p.1.length > uint32Max ∨ p.2.length > uint32Max) := by
      rw [uint32Max]
      omega
    rw [mapRecords_cons, List.length_append] at hroom
    have hparts : [lePut 4 p.1.length ++ lePut 4 p.2.length, p.1, p.2.take p.2.length].flatten = mapRecord p := by
      simp [mapRecord]
    have hstep : writeEntry p.1 p.2 p.2.length fp = (fp.put (mapRecord p), true) := by
      rw [writeEntry, if_neg hfits, fwriteAll_ok (by rw [hparts]; omega), hparts]
    rw [List.map_cons, asEntry, eachEntry, hstep]
    simp only []
    rw [ih (fun q hq => h q (List.mem_cons_of_mem _ hq)) (by rw [Sink.put_room]; omega), Sink.put_put, mapRecords_cons]

end

/-! ## The two passes -/

section
variable {m m' : ToolMemory} {text : Bytes}

theorem nextScan_consistent (hm : Consistent m) : Consistent (nextScan m) := { hm with }

theorem nextScan_seenAre (h : MarksLe m m.scanClock) : SeenAre (nextScan m) (nextScan m).scanClock [] := by
  intro k b hb
  have hle := h k b hb
  have hclock : (nextScan m).scanClock = m.scanClock + 1 := rfl
  refine ⟨fun heq => ?_, fun hin => absurd hin List.not_mem_nil⟩
  omega

/-- The entries visited are the pairs, and a walk leaves them as they are. -/
theorem visited_marked (hmarked : Marked m m') (hm : Consistent m) :
    (blocksOf m' text).flatMap (entriesAt m') = (emitted m text).map asEntry := by
  have hblocks : blocksOf m' text = blocksOf m text := by
    have hfind : toolMemoryFindBlock m' = toolMemoryFindBlock m := by
      funext d
      rw [toolMemoryFindBlock, toolMemoryFindBlock, hmarked.byBlock]
    rw [blocksOf, blocksSeen, hfind]
    rfl
  rw [hblocks, funext hmarked.entries, visited_eq hm]
  rfl

/-- A walk over all of the text, under a number no mark has. -/
theorem walk_spec {σ : Type} (text : Bytes) (step : Bytes → Bytes → Nat → σ → σ × Bool) (acc : σ) (hm : Consistent m)
    (hmarks : MarksLe m m.scanClock) :
    Marked (nextScan m) (scanBlocks step (nextScan m).scanClock (text.length + 1) (nextScan m) text acc).1 ∧
      MarksLe (scanBlocks step (nextScan m).scanClock (text.length + 1) (nextScan m) text acc).1
        (nextScan m).scanClock ∧
      (scanBlocks step (nextScan m).scanClock (text.length + 1) (nextScan m) text acc).2 =
        eachEntry step ((emitted m text).map asEntry) acc := by
  have hle : MarksLe (nextScan m) (nextScan m).scanClock := fun k b hb => (hmarks k b hb).trans (Nat.le_succ _)
  have hm' := nextScan_consistent hm
  have hemitted : emitted (nextScan m) text = emitted m text := rfl
  obtain ⟨hmarked, hle', heq⟩ := scanBlocks_spec (text.length + 1) text acc hm' (nextScan_seenAre hmarks) hle
  refine ⟨hmarked, hle', heq.trans ?_⟩
  rw [← hemitted, ← visited_marked (.refl (nextScan m)) hm']
  rfl

/-- The pairs are few and short enough for the counters. -/
structure Countable (ps : List (Bytes × Bytes)) : Prop where
  storable : ∀ p ∈ ps, Storable p
  count : ps.length ≤ 2147483647

theorem Countable.bytes {ps : List (Bytes × Bytes)} (h : Countable ps) :
    kvToolMapHeader + (mapRecords ps).length ≤ uint64Max := by
  have hlen := length_mapRecords_le h.storable
  have hcount := h.count
  rw [kvToolMapHeader, uint64Max]
  omega

/-- Measuring gives the number of pairs and the length of their section. -/
theorem measure_spec (hm : Consistent m) (hmarks : MarksLe m m.scanClock) (h : Countable (emitted m text)) :
    (kvToolMapMeasure m text).2 = some ((emitted m text).length, (mapSection (emitted m text)).length) ∧
      Marked (nextScan m) (kvToolMapMeasure m text).1 ∧
      MarksLe (kvToolMapMeasure m text).1 (nextScan m).scanClock := by
  obtain ⟨hmarked, hle, heq⟩ :=
    walk_spec text measureEntry (0, kvToolMapHeader) hm hmarks
  have hcount : (0, kvToolMapHeader).1 + (emitted m text).length ≤ uint32Max := by
    have := h.count
    rw [uint32Max]
    omega
  rw [measure_entries h.storable hcount h.bytes] at heq
  refine ⟨?_, hmarked, hle⟩
  have hmeasure : (kvToolMapMeasure m text).2 =
      let r := (scanBlocks measureEntry (nextScan m).scanClock (text.length + 1) (nextScan m) text
        (0, kvToolMapHeader)).2
      if r.2 then some (r.1.1, if r.1.1 = 0 then 0 else r.1.2) else none := rfl
  rw [hmeasure, heq]
  simp only [Nat.zero_add, if_true]
  by_cases hps : emitted m text = []
  · simp [hps, mapSection]
  · rw [if_neg (by simpa using hps), length_mapSection hps]

/-- Writing appends the section and reports its length. -/
theorem write_spec {s : ReplayServer} {fp : Sink} (hon : s.disableExactDsmlToolReplay = false) (htext : text ≠ [])
    (hm : Consistent s.toolMem) (hmarks : MarksLe s.toolMem s.toolMem.scanClock)
    (h : Countable (emitted s.toolMem text)) (hroom : (mapSection (emitted s.toolMem text)).length ≤ fp.room) :
    (kvToolMapWrite s fp text).2 =
      (fp.put (mapSection (emitted s.toolMem text)), some (mapSection (emitted s.toolMem text)).length) := by
  obtain ⟨hres, hmarked, hle⟩ := measure_spec hm hmarks h
  have hgo : ¬(s.disableExactDsmlToolReplay = true ∨ text = []) := by simp [hon, htext]
  rw [kvToolMapWrite, if_neg hgo]
  revert hres hmarked hle
  generalize kvToolMapMeasure s.toolMem text = r
  obtain ⟨m', res⟩ := r
  rintro rfl hmarked hle
  generalize hps : emitted s.toolMem text = ps at h hroom
  cases ps with
  | nil => simp [mapSection, Sink.put]
  | cons p ps =>
    simp only [List.length_cons]
    have hne : p :: ps ≠ [] := List.cons_ne_nil p ps
    have hclock : m'.scanClock = (nextScan s.toolMem).scanClock := hmarked.scanClock
    have hm' : Consistent m' := hmarked.consistent (nextScan_consistent hm)
    have hsection := length_mapSection hne
    rw [kvToolMapHeader] at hsection
    have hhead : (utf8 "KTM" ++ [1] ++ lePut 4 (ps.length + 1)).length = 8 := by
      rw [List.length_append, length_lePut]
      rfl
    rw [fwrite_ok (by omega)]
    simp only [if_true]
    -- the second walk meets the memory the first one left
    have hsame : emitted (nextScan s.toolMem) text = p :: ps := hps
    have hemitted : (emitted m' text).map asEntry = (p :: ps).map asEntry := by
      rw [← hsame, ← visited_marked (.refl m') hm']
      exact visited_marked hmarked (nextScan_consistent hm)
    obtain ⟨-, -, heq⟩ := walk_spec text writeEntry
      (fp.put (utf8 "KTM" ++ [1] ++ lePut 4 (ps.length + 1))) hm' (hclock ▸ hle)
    rw [hemitted, write_entries h.storable (by rw [Sink.put_room, hhead]; omega), Sink.put_put] at heq
    have hall : utf8 "KTM" ++ [1] ++ lePut 4 (ps.length + 1) ++ mapRecords (p :: ps) = mapSection (p :: ps) := by
      rw [mapSection, if_neg hne, List.length_cons]
    rw [hall] at heq
    have hdone : ∀ (r : ToolMemory × Sink × Bool) (x : Sink) (n : Nat), r.2 = (x, true) →
        (r.2.1, if r.2.2 = true then some n else none) = (x, some n) := by
      rintro ⟨-, r⟩ x n rfl
      rfl
    exact hdone _ _ _ heq

end

/-! ## Load -/

/-- What a pair takes up in the memory, its block included. -/
def pairCost (p : Bytes × Bytes) : Nat := (p.1.length + 1 + sizeofEntry) + (p.2.length + 1 + sizeofBlock)

section
variable {m : ToolMemory} {id d : Bytes}

theorem getBlock_counts (m : ToolMemory) (d : Bytes) : (toolMemoryGetBlock m d).1.entries = m.entries ∧
    (toolMemoryGetBlock m d).1.bytes ≤ m.bytes + (d.length + 1 + sizeofBlock) := by
  unfold toolMemoryGetBlock
  split
  next => exact ⟨rfl, Nat.le_add_right _ _⟩
  next => exact ⟨rfl, Nat.le_refl _⟩

theorem newEntry_counts (m : ToolMemory) (id d : Bytes) (source : ToolMemorySource) :
    (toolMemoryNewEntry m id d source).entries ≤ m.entries + 1 ∧
    (toolMemoryNewEntry m id d source).bytes ≤ m.bytes + pairCost (id, d) := by
  obtain ⟨hentries, hbytes⟩ := getBlock_counts m d
  unfold toolMemoryNewEntry
  revert hentries hbytes
  generalize toolMemoryGetBlock m d = r
  obtain ⟨m', k⟩ := r
  intro hentries hbytes
  simp only [] at hentries hbytes ⊢
  split
  next =>
    simp only [pairCost]
    omega
  next =>
    simp only [memoryEntry, pairCost]
    omega

theorem lookup_none_of_new (hm : Consistent m) (hnew : ∀ d', (id, d') ∉ contents m) : m.byId.lookup id = none := by
  cases hi : m.byId.lookup id with
  | none => rfl
  | some h =>
    obtain ⟨e, he, rfl⟩ := Option.map_eq_some_iff.mp ((hm.index id h).mp hi)
    obtain ⟨b, -, hp⟩ := hm.pair he
    exact absurd ((mem_contents hm).mpr ⟨h, hi, hp⟩) (hnew b.dsml)

/-- A put of a new id, with room for it, adds its pair and nothing else. -/
theorem put_new (source : ToolMemorySource) (hm : Consistent m) (hid : id ≠ []) (hd : d ≠ [])
    (hnew : ∀ d', (id, d') ∉ contents m) (hentries : m.entries + 1 ≤ toolMemoryMaxEntries m)
    (hbytes : m.bytes + pairCost (id, d) ≤ toolMemoryMaxBytes m) :
    toolMemoryPut m id d source = toolMemoryNewEntry m id d source ∧
      Consistent (toolMemoryPut m id d source) ∧ contents (toolMemoryPut m id d source) = (id, d) :: contents m := by
  have hfree := lookup_none_of_new hm hnew
  obtain ⟨hc, hcon⟩ := newEntry_spec source hm hid hd hfree
  obtain ⟨hcount, hsize⟩ := newEntry_counts m id d source
  obtain ⟨hmaxE, hmaxB⟩ := newEntry_limits m id d source
  have hput : toolMemoryPut m id d source = toolMemoryNewEntry m id d source := by
    have hentry : putEntry m id d source = toolMemoryNewEntry m id d source := by
      rw [putEntry, toolMemoryFindEntry, if_neg hid, hfree]
    rw [toolMemoryPut, if_neg (by simp [hid, hd]), hentry, prune_of_fits]
    rw [Fits, toolMemoryMaxEntries, toolMemoryMaxBytes, hmaxE, hmaxB]
    exact ⟨hcount.trans hentries, hsize.trans hbytes⟩
  rw [hput, hcon, promote, not_mem_contents hm hfree]
  exact ⟨rfl, hc, rfl⟩

end

/-- What a reader finds at a record. -/
theorem record_read (p : Bytes × Bytes) (rest : Bytes) :
    (mapRecord p ++ rest).take 4 = lePut 4 p.1.length ∧ ((mapRecord p ++ rest).drop 4).take 4 = lePut 4 p.2.length ∧
      (mapRecord p ++ rest).drop 8 = p.1 ++ (p.2 ++ rest) := by
  have h4 : ∀ n, (lePut 4 n).length = 4 := length_lePut 4
  have hshape : mapRecord p ++ rest = lePut 4 p.1.length ++ (lePut 4 p.2.length ++ (p.1 ++ (p.2 ++ rest))) := by
    simp [mapRecord]
  have hdrop : ∀ x : Bytes, (lePut 4 p.1.length ++ x).drop 4 = x := fun x => List.drop_left' (h4 _)
  refine ⟨?_, ?_, ?_⟩
  · rw [hshape, List.take_left' (h4 _)]
  · rw [hshape, hdrop, List.take_left' (h4 _)]
  · rw [hshape]
    calc (lePut 4 p.1.length ++ (lePut 4 p.2.length ++ (p.1 ++ (p.2 ++ rest)))).drop (4 + 4)
        = ((lePut 4 p.1.length ++ (lePut 4 p.2.length ++ (p.1 ++ (p.2 ++ rest)))).drop 4).drop 4 := List.drop_drop.symm
      _ = (lePut 4 p.2.length ++ (p.1 ++ (p.2 ++ rest))).drop 4 := by rw [hdrop]
      _ = p.1 ++ (p.2 ++ rest) := List.drop_left' (h4 _)

theorem leGet_short {n : Nat} (h : n < 4294967296) : leGet (lePut 4 n) = n := by
  rw [leGet_lePut]
  exact Nat.mod_eq_of_lt h

/-- One round of the loop over the records: the pair is put. -/
theorem loadRecords_record {p : Bytes × Bytes} (hp : Storable p) (n : Nat) (s : ReplayServer) (rest : Bytes)
    (loaded : Nat) :
    loadRecords none (n + 1) s (mapRecord p ++ rest) loaded =
      loadRecords none n (toolMemoryPutSource s p.1 p.2 .disk) rest (loaded + 1) := by
  obtain ⟨hid, hdsml, hbody⟩ := record_read p rest
  have hidLe := hp.id_le
  have hdsmlLe := hp.dsml_le
  have hidPos := List.length_pos_iff.mpr hp.id_pos
  have hdsmlPos := List.length_pos_iff.mpr hp.dsml_pos
  rw [toolMemoryMaxBytesDefault] at hdsmlLe
  have hlen : ¬(mapRecord p ++ rest).length < 8 := by
    rw [List.length_append, length_mapRecord]
    omega
  have hok : ¬(p.1.length = 0 ∨ p.1.length > 256 ∨ p.2.length = 0 ∨ p.2.length > toolMemoryMaxBytesDefault) := by
    rw [toolMemoryMaxBytesDefault]
    omega
  have hwhole : ¬(p.1 ++ (p.2 ++ rest)).length < p.1.length + p.2.length := by
    rw [List.length_append, List.length_append]
    omega
  have hrest : (p.1 ++ (p.2 ++ rest)).drop (p.1.length + p.2.length) = rest := by
    rw [← List.append_assoc, List.drop_left' List.length_append]
  rw [loadRecords, if_neg hlen, hid, hdsml, hbody, leGet_short (by omega), leGet_short (by omega)]
  simp only [if_neg hok, List.take_left, List.drop_left, cstr_of_no_nul hp.id_nul, cstr_of_no_nul hp.dsml_nul,
    if_neg hwhole, hrest, Option.all_none, if_true]

/-- The records are put one after the other, each a new pair in the memory. -/
theorem loadRecords_spec {ps : List (Bytes × Bytes)} {s : ReplayServer} (loaded : Nat)
    (hon : s.disableExactDsmlToolReplay = false) (hm : Consistent s.toolMem) (hps : ∀ p ∈ ps, Storable p)
    (hkeys : (ps.map Prod.fst).Nodup) (hnew : ∀ p ∈ ps, ∀ d, (p.1, d) ∉ contents s.toolMem)
    (hentries : s.toolMem.entries + ps.length ≤ toolMemoryMaxEntries s.toolMem)
    (hbytes : s.toolMem.bytes + (ps.map pairCost).sum ≤ toolMemoryMaxBytes s.toolMem) :
    Consistent (loadRecords none ps.length s (mapRecords ps) loaded).1.toolMem ∧
      contents (loadRecords none ps.length s (mapRecords ps) loaded).1.toolMem = ps.reverse ++ contents s.toolMem := by
  induction ps generalizing s loaded with
  | nil => exact ⟨hm, rfl⟩
  | cons p ps ih =>
    have hp := hps p List.mem_cons_self
    have hcost : pairCost (p.1, p.2) = pairCost p := rfl
    rw [List.length_cons] at hentries
    rw [List.map_cons, List.sum_cons] at hbytes
    obtain ⟨hput, hc, hcon⟩ := put_new .disk hm hp.id_pos hp.dsml_pos (hnew p List.mem_cons_self) (by omega) (by omega)
    obtain ⟨hcount, hsize⟩ := newEntry_counts s.toolMem p.1 p.2 .disk
    obtain ⟨hmaxE, hmaxB⟩ := newEntry_limits s.toolMem p.1 p.2 .disk
    rw [← hput] at hcount hsize hmaxE hmaxB
    have hsource : toolMemoryPutSource s p.1 p.2 .disk = { s with toolMem := toolMemoryPut s.toolMem p.1 p.2 .disk } :=
      if_neg (by simp [hon, hp.id_pos, hp.dsml_pos])
    rw [List.map_cons, List.nodup_cons] at hkeys
    rw [List.length_cons, mapRecords_cons, loadRecords_record hp, hsource]
    have hnew' : ∀ q ∈ ps, ∀ d, (q.1, d) ∉ contents (toolMemoryPut s.toolMem p.1 p.2 .disk) := by
      intro q hq d hin
      rw [hcon, List.mem_cons] at hin
      rcases hin with heq | hin
      · rw [← (Prod.mk.inj heq).1] at hkeys
        exact hkeys.1 (List.mem_map_of_mem hq)
      · exact hnew q (List.mem_cons_of_mem _ hq) d hin
    have hentries' : (toolMemoryPut s.toolMem p.1 p.2 .disk).entries + ps.length ≤
        toolMemoryMaxEntries (toolMemoryPut s.toolMem p.1 p.2 .disk) := by
      rw [toolMemoryMaxEntries] at hentries ⊢
      rw [hmaxE]
      omega
    have hbytes' : (toolMemoryPut s.toolMem p.1 p.2 .disk).bytes + (ps.map pairCost).sum ≤
        toolMemoryMaxBytes (toolMemoryPut s.toolMem p.1 p.2 .disk) := by
      rw [toolMemoryMaxBytes] at hbytes ⊢
      rw [hmaxB]
      omega
    obtain ⟨hc', hcon'⟩ := ih (s := { s with toolMem := toolMemoryPut s.toolMem p.1 p.2 .disk }) (loaded + 1) hon hc
      (fun q hq => hps q (List.mem_cons_of_mem _ hq)) hkeys.2 hnew' hentries' hbytes'
    refine ⟨hc', hcon'.trans ?_⟩
    rw [hcon, List.reverse_cons, List.append_assoc, List.singleton_append]

/-- A server with nothing remembered. -/
def emptyServer (maxEntries : Int) (maxBytes : Nat) (disabled : Bool) : ReplayServer :=
  { toolMem := .empty maxEntries maxBytes, disableExactDsmlToolReplay := disabled }

/-- A section read back into an empty memory with room for it. -/
theorem load_section {ps : List (Bytes × Bytes)} {maxEntries : Int} {maxBytes : Nat} (h : Countable ps)
    (hkeys : (ps.map Prod.fst).Nodup) (hentries : ps.length ≤ toolMemoryMaxEntries (.empty maxEntries maxBytes))
    (hbytes : (ps.map pairCost).sum ≤ toolMemoryMaxBytes (.empty maxEntries maxBytes)) :
    Consistent (kvToolMapLoadFromPos (emptyServer maxEntries maxBytes false) (mapSection ps) none).1.toolMem ∧
      contents (kvToolMapLoadFromPos (emptyServer maxEntries maxBytes false) (mapSection ps) none).1.toolMem =
        ps.reverse := by
  have hempty : contents (ToolMemory.empty maxEntries maxBytes) = [] := rfl
  by_cases hps : ps = []
  · have hload : kvToolMapLoadFromPos (emptyServer maxEntries maxBytes false) [] none =
        (emptyServer maxEntries maxBytes false, 0) := by
      simp [kvToolMapLoadFromPos, kvToolMapHeader]
    have hsection : mapSection ps = [] := if_pos hps
    rw [hsection, hload, hps]
    exact ⟨consistent_empty maxEntries maxBytes, hempty⟩
  · have hlen := length_mapSection hps
    have hmagic : (utf8 "KTM" ++ [1]).length = 4 := rfl
    have hshape : mapSection ps = (utf8 "KTM" ++ [1]) ++ (lePut 4 ps.length ++ mapRecords ps) := by
      rw [mapSection, if_neg hps, List.append_assoc]
    have htake : (mapSection ps).take 4 = utf8 "KTM" ++ [1] := by rw [hshape, List.take_left' hmagic]
    have hdrop : (mapSection ps).drop 4 = lePut 4 ps.length ++ mapRecords ps := by
      rw [hshape, List.drop_left' hmagic]
    have hrecords : (mapSection ps).drop kvToolMapHeader = mapRecords ps := by
      calc (mapSection ps).drop (4 + 4) = ((mapSection ps).drop 4).drop 4 := List.drop_drop.symm
        _ = mapRecords ps := by rw [hdrop, List.drop_left' (length_lePut 4 _)]
    have hcount : leGet (((mapSection ps).drop 4).take 4) = ps.length := by
      have := h.count
      rw [hdrop, List.take_left' (length_lePut 4 _), leGet_short (by omega)]
    have hgo : ¬((emptyServer maxEntries maxBytes false).disableExactDsmlToolReplay = true ∨
        (mapSection ps).length < kvToolMapHeader ∨ (mapSection ps).take 4 ≠ utf8 "KTM" ++ [1]) := by
      rw [htake, hlen]
      simp [emptyServer]
    have hfew : ¬ps.length > toolMemoryMaxEntries (emptyServer maxEntries maxBytes false).toolMem * 4 := by
      have hsame : toolMemoryMaxEntries (emptyServer maxEntries maxBytes false).toolMem =
          toolMemoryMaxEntries (.empty maxEntries maxBytes) := rfl
      omega
    have hload : kvToolMapLoadFromPos (emptyServer maxEntries maxBytes false) (mapSection ps) none =
        loadRecords none ps.length (emptyServer maxEntries maxBytes false) (mapRecords ps) 0 := by
      rw [kvToolMapLoadFromPos, if_neg hgo, hcount, hrecords]
      exact if_neg hfew
    rw [hload]
    have hroom : 0 + ps.length ≤ toolMemoryMaxEntries (.empty maxEntries maxBytes) := by omega
    have hspace : 0 + (ps.map pairCost).sum ≤ toolMemoryMaxBytes (.empty maxEntries maxBytes) := by omega
    have hspec := loadRecords_spec (s := emptyServer maxEntries maxBytes false) 0 rfl
      (consistent_empty maxEntries maxBytes) h.storable hkeys (fun p _ d => List.not_mem_nil) hroom hspace
    have hnone : contents (emptyServer maxEntries maxBytes false).toolMem = [] := rfl
    rwa [hnone, List.append_nil] at hspec

end Ds4.Server
