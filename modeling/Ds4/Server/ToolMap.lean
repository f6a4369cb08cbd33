import Ds4.Server.Dsml
import Ds4.Server.ToolMemory
import Ds4.Store.KvFile

/- The tool-id map of ds4_server.c: the section of a checkpoint file that keeps the
   ids whose remembered DSML stands in the saved text.

   Correspondence (C ↔ Lean):
     `find_next_dsml_tool_block`   ↔ `findNextDsmlToolBlock`
     `kv_tool_map_measure_locked`  ↔ `kvToolMapMeasure`
     `kv_tool_map_serialized_size` ↔ `kvToolMapSerializedSize`
     `kv_tool_map_write`           ↔ `kvToolMapWrite`
     `kv_tool_map_load_from_pos`   ↔ `kvToolMapLoadFromPos`
     `tool_memory_put_source`      ↔ `toolMemoryPutSource`
     `id_list_contains`            ↔ `idListContains`
   Of the `server` these read the tool memory and one flag. Measuring and writing
   walk the text in the same way, so the walk is one definition (`scanBlocks`) with
   what it does at an entry as a parameter. A file being written has room for some
   bytes more, and a file being read is the bytes from its position on. -/
namespace Ds4.Server
open Ds4 Bytes Store

structure ReplayServer where
  toolMem : ToolMemory
  disableExactDsmlToolReplay : Bool

/-! ## Blocks of a text -/

/-- A block found: where it starts, its bytes, and the text after it. -/
structure FoundBlock where
  start : Nat
  block : Bytes
  rest : Bytes
  deriving DecidableEq

/-- One round of the loop over the forms: `c` is the form's style and opening. -/
def betterBlock (p : Bytes) (best : Option FoundBlock) (c : DsmlStyle × Bytes) : Option FoundBlock :=
  let tagEnd := (dsmlSyntax c.1).toolCallsEnd
  match strstr c.2 p with
  | none => best
  | some (before, s) =>
    if best.any fun b => before.length ≥ b.start then best
    else
      match strstr tagEnd s with
      | none => best
      | some (body, e) => some { start := before.length, block := body ++ tagEnd, rest := e.drop tagEnd.length }

def findNextDsmlToolBlock (p : Bytes) : Option FoundBlock := toolStartCandidates.foldl (betterBlock p) none

/-! ## The walk -/

section
variable {σ : Type}

/-- The walk over entries: `step` takes an id, the block's DSML and its length, and says whether to go on. -/
def eachEntry (step : Bytes → Bytes → Nat → σ → σ × Bool) : List (Bytes × Bytes × Nat) → σ → σ × Bool
  | [], acc => (acc, true)
  | (id, dsml, len) :: es, acc =>
    match step id dsml len acc with
    | (acc', true) => eachEntry step es acc'
    | (acc', false) => (acc', false)

/-- The entries of a block, in the order of its list. -/
def blockEntries (m : ToolMemory) (b : ToolMemoryBlock) : List (Bytes × Bytes × Nat) :=
  (b.entries.filterMap m.entryAt.lookup).map fun e => (e.id, b.dsml, b.len)

/-- `b->seen = scan`, where `k` points to `b`. -/
def markSeen (m : ToolMemory) (k : Nat) (b : ToolMemoryBlock) (scan : Nat) : ToolMemory :=
  { m with blockAt := m.blockAt.insert k { b with seen := scan } }

/-- The loop over the blocks of the text, each remembered one visited once under the
    number `scan`; `fuel` bounds its rounds. -/
def scanBlocks (step : Bytes → Bytes → Nat → σ → σ × Bool) (scan : Nat) :
    Nat → ToolMemory → Bytes → σ → ToolMemory × σ × Bool
  | 0, m, _, acc => (m, acc, true)
  | fuel + 1, m, p, acc =>
    match findNextDsmlToolBlock p with
    | none => (m, acc, true)
    | some f =>
      match toolMemoryFindBlock m f.block with
      | none => scanBlocks step scan fuel m f.rest acc
      | some k =>
        match m.blockAt.lookup k with
        | none => (m, acc, true) -- the index points to no block
        | some b =>
          if b.seen = scan then scanBlocks step scan fuel m f.rest acc
          else
            match eachEntry step (blockEntries m b) acc with
            | (acc', true) => scanBlocks step scan fuel (markSeen m k b scan) f.rest acc'
            | (acc', false) => (markSeen m k b scan, acc', false)

end

/-! ## Measure and write -/

def uint32Max : Nat := 4294967295

def uint64Max : Nat := 18446744073709551615

def kvToolMapHeader : Nat := 8

/-- `++scan_clock`: the memory at the start of a walk, which has the new number. -/
def nextScan (m : ToolMemory) : ToolMemory := { m with scanClock := m.scanClock + 1 }

/-- `acc` is the count and the bytes so far. -/
def measureEntry (id _dsml : Bytes) (len : Nat) (acc : Nat × Nat) : (Nat × Nat) × Bool :=
  if id.length > uint32Max ∨ len > uint32Max then (acc, true)
  else if acc.1 = uint32Max then (acc, false)
  else if uint64Max - acc.2 < 8 ∨ uint64Max - acc.2 - 8 < id.length ∨ uint64Max - acc.2 - 8 - id.length < len then
    (acc, false)
  else ((acc.1 + 1, acc.2 + (8 + id.length + len)), true)

/-- The count and the bytes, or none where one would overflow. -/
def kvToolMapMeasure (m : ToolMemory) (text : Bytes) : ToolMemory × Option (Nat × Nat) :=
  let (m', (count, bytes), ok) :=
    scanBlocks measureEntry (nextScan m).scanClock (text.length + 1) (nextScan m) text (0, kvToolMapHeader)
  (m', if ok then some (count, if count = 0 then 0 else bytes) else none)

/-- The bytes the section will have; none where the C function returns false. -/
def kvToolMapSerializedSize (s : ReplayServer) (text : Bytes) : ReplayServer × Option Nat :=
  if s.disableExactDsmlToolReplay ∨ text = [] then (s, some 0)
  else
    let (m, r) := kvToolMapMeasure s.toolMem text
    ({ s with toolMem := m }, r.map Prod.snd)

/-- A file being written, with room for so many bytes more. -/
structure Sink where
  data : Bytes
  room : Nat
  deriving DecidableEq

/-- `fwrite`, and whether all was written. -/
def fwrite (fp : Sink) (b : Bytes) : Sink × Bool :=
  ({ data := fp.data ++ b.take fp.room, room := fp.room - b.length }, b.length ≤ fp.room)

/-- `ok = fwrite(..) && fwrite(..) && ..`, one part after the other. -/
def fwriteAll : List Bytes → Sink → Sink × Bool
  | [], fp => (fp, true)
  | b :: bs, fp =>
    match fwrite fp b with
    | (fp', true) => fwriteAll bs fp'
    | (fp', false) => (fp', false)

def writeEntry (id dsml : Bytes) (len : Nat) (fp : Sink) : Sink × Bool :=
  if id.length > uint32Max ∨ len > uint32Max then (fp, true)
  else fwriteAll [lePut 4 id.length ++ lePut 4 len, id, dsml.take len] fp

/-- The bytes written; none where the C function returns false. -/
def kvToolMapWrite (s : ReplayServer) (fp : Sink) (text : Bytes) : ReplayServer × Sink × Option Nat :=
  if s.disableExactDsmlToolReplay ∨ text = [] then (s, fp, some 0)
  else
    match kvToolMapMeasure s.toolMem text with
    | (m, none) => ({ s with toolMem := m }, fp, none)
    | (m, some (0, _)) => ({ s with toolMem := m }, fp, some 0)
    | (m, some (count, bytes)) =>
      let (fp', ok) := fwrite fp (utf8 "KTM" ++ [1] ++ lePut 4 count)
      if ok then
        let (m', fp'', ok') :=
          scanBlocks writeEntry (nextScan m).scanClock (text.length + 1) (nextScan m) text fp'
        ({ s with toolMem := m' }, fp'', if ok' then some bytes else none)
      else ({ s with toolMem := nextScan m }, fp', none)

/-! ## Load -/

def toolMemoryPutSource (s : ReplayServer) (id dsml : Bytes) (source : ToolMemorySource) : ReplayServer :=
  if s.disableExactDsmlToolReplay ∨ id = [] ∨ dsml = [] then s
  else { s with toolMem := toolMemoryPut s.toolMem id dsml source }

def toolMemoryMaxBytesDefault : Nat := 512 * 1024 * 1024

def idListContains (ids : List Bytes) (id : Bytes) : Bool := id ≠ [] && ids.contains id

/-- The loop over the records: the first argument counts those still to read. -/
def loadRecords (wanted : Option (List Bytes)) : Nat → ReplayServer → Bytes → Nat → ReplayServer × Nat
  | 0, s, _, loaded => (s, loaded)
  | n + 1, s, fp, loaded =>
    if fp.length < 8 then (s, loaded)
    else
      let idLen := leGet (fp.take 4)
      let dsmlLen := leGet ((fp.drop 4).take 4)
      if idLen = 0 ∨ idLen > 256 ∨ dsmlLen = 0 ∨ dsmlLen > toolMemoryMaxBytesDefault then (s, loaded)
      else
        let body := fp.drop 8
        let id := cstr (body.take idLen)
        let dsml := cstr ((body.drop idLen).take dsmlLen)
        if body.length < idLen + dsmlLen then (s, loaded)
        else if wanted.all fun ids => idListContains ids id then
          loadRecords wanted n (toolMemoryPutSource s id dsml .disk) (body.drop (idLen + dsmlLen)) (loaded + 1)
        else loadRecords wanted n s (body.drop (idLen + dsmlLen)) loaded

/-- The server afterwards and how many records were put; `fp` is the file from its position on. -/
def kvToolMapLoadFromPos (s : ReplayServer) (fp : Bytes) (wanted : Option (List Bytes)) : ReplayServer × Nat :=
  if s.disableExactDsmlToolReplay ∨ fp.length < kvToolMapHeader ∨ fp.take 4 ≠ utf8 "KTM" ++ [1] then (s, 0)
  else
    let count := leGet ((fp.drop 4).take 4)
    if count > toolMemoryMaxEntries s.toolMem * 4 then (s, 0)
    else loadRecords wanted count s (fp.drop kvToolMapHeader) 0

end Ds4.Server
