import Ds4.Bytes
import Ds4.Directory

/- The tool memory of ds4_server.c: the sampled DSML of each tool call, by the
   call's id, in least-recently-used order.

   Correspondence (C ↔ Lean):
     `tool_memory_block`, `tool_memory_entry`, `tool_memory` ↔ `ToolMemoryBlock`, `ToolMemoryEntry`, `ToolMemory`
     `tool_memory_max_entries`, `tool_memory_max_bytes`      ↔ `toolMemoryMaxEntries`, `toolMemoryMaxBytes`
     `tool_memory_touch`, `tool_memory_get_block_locked`, `tool_memory_release_block_locked`,
     `tool_memory_remove_entry_locked`, `tool_memory_prune_locked`, `tool_memory_put_locked`,
     `tool_memory_lookup_locked`                             ↔ the same names in camel case
   A pointer is a handle into the objects `malloc` gave and `free` has not taken
   back, and `fresh` is the next one `malloc` gives. The radix trees are finite maps
   from keys to handles, empty before `tool_memory_init_locked`. The intrusive
   lists (`head`, `tail`, `prev`, `next` and `entries`, `block_next`) are lists of
   handles, the head first. A counter has no upper end here: each counts objects or
   bytes in memory. -/
namespace Ds4.Server
open Ds4

inductive ToolMemorySource where
  | ram
  | disk
  deriving DecidableEq, Repr

structure ToolMemoryBlock where
  dsml : Bytes
  len : Nat
  bytes : Nat
  refs : Nat
  seen : Nat
  entries : List Nat

structure ToolMemoryEntry where
  id : Bytes
  block : Nat
  bytes : Nat
  stamp : Nat
  source : ToolMemorySource

structure ToolMemory where
  blockAt : AList fun _ : Nat => ToolMemoryBlock
  entryAt : AList fun _ : Nat => ToolMemoryEntry
  fresh : Nat
  byId : AList fun _ : Bytes => Nat
  byBlock : AList fun _ : Bytes => Nat
  lru : List Nat
  entries : Nat
  maxEntries : Int
  bytes : Nat
  maxBytes : Nat
  clock : Nat
  scanClock : Nat

/-- The zeroed memory, with its two limits set. -/
def ToolMemory.empty (maxEntries : Int) (maxBytes : Nat) : ToolMemory :=
  { blockAt := ∅, entryAt := ∅, fresh := 0, byId := ∅, byBlock := ∅, lru := [], entries := 0, maxEntries, bytes := 0,
    maxBytes, clock := 0, scanClock := 0 }

/-- `sizeof(tool_memory_block)` on the LP64 targets. -/
def sizeofBlock : Nat := 48

/-- `sizeof(tool_memory_entry)` on the LP64 targets. -/
def sizeofEntry : Nat := 64

def toolMemoryMaxEntries (m : ToolMemory) : Nat := if m.maxEntries > 0 then m.maxEntries.toNat else 100000

def toolMemoryMaxBytes (m : ToolMemory) : Nat := if m.maxBytes > 0 then m.maxBytes else 512 * 1024 * 1024

def toolMemoryTouch (m : ToolMemory) (h : Nat) (e : ToolMemoryEntry) : ToolMemory :=
  { m with
    clock := m.clock + 1
    entryAt := m.entryAt.insert h { e with stamp := m.clock + 1 }
    lru := if m.lru.head? = some h then m.lru else h :: m.lru.erase h }

def toolMemoryFindEntry (m : ToolMemory) (id : Bytes) : Option Nat :=
  if id = [] then none else m.byId.lookup id

def toolMemoryFindBlock (m : ToolMemory) (dsml : Bytes) : Option Nat :=
  if dsml = [] then none else m.byBlock.lookup dsml

/-- A block as it is made, with no entry yet. -/
def memoryBlock (dsml : Bytes) : ToolMemoryBlock :=
  { dsml, len := dsml.length, bytes := dsml.length + 1 + sizeofBlock, refs := 0, seen := 0, entries := [] }

def memoryEntry (id : Bytes) (block stamp : Nat) (source : ToolMemorySource) : ToolMemoryEntry :=
  { id, block, bytes := id.length + 1 + sizeofEntry, stamp, source }

/-- The block of the text, made when there is none, and the memory with it. -/
def toolMemoryGetBlock (m : ToolMemory) (dsml : Bytes) : ToolMemory × Nat :=
  match toolMemoryFindBlock m dsml with
  | some k => (m, k)
  | none =>
    ({ m with
        blockAt := m.blockAt.insert m.fresh (memoryBlock dsml)
        byBlock := m.byBlock.insert dsml m.fresh
        fresh := m.fresh + 1
        bytes := m.bytes + (memoryBlock dsml).bytes }, m.fresh)

/-- `k` is the block's handle and `b` what it points to. -/
def toolMemoryReleaseBlock (m : ToolMemory) (k : Nat) (b : ToolMemoryBlock) : ToolMemory :=
  if b.refs - 1 > 0 then { m with blockAt := m.blockAt.insert k { b with refs := b.refs - 1 } }
  else
    { m with
      byBlock := m.byBlock.erase b.dsml
      bytes := if m.bytes ≥ b.bytes then m.bytes - b.bytes else 0
      blockAt := m.blockAt.erase k }

def toolMemoryRemoveEntry (m : ToolMemory) (h : Nat) : ToolMemory :=
  match m.entryAt.lookup h with
  | none => m -- `h` points to no entry
  | some e =>
    let m' : ToolMemory :=
      { m with
        byId := m.byId.erase e.id
        lru := m.lru.erase h
        bytes := if m.bytes ≥ e.bytes then m.bytes - e.bytes else 0
        entries := if m.entries > 0 then m.entries - 1 else m.entries
        entryAt := m.entryAt.erase h }
    match m.blockAt.lookup e.block with
    | none => m'
    | some b => toolMemoryReleaseBlock m' e.block { b with entries := b.entries.erase h }

/-- The `while` of `tool_memory_prune_locked`; `fuel` bounds its rounds. -/
def pruneLoop : Nat → ToolMemory → ToolMemory
  | 0, m => m
  | fuel + 1, m =>
    if m.entries > toolMemoryMaxEntries m ∨ m.bytes > toolMemoryMaxBytes m then
      match m.lru.getLast? with
      | some tail => pruneLoop fuel (toolMemoryRemoveEntry m tail)
      | none => m
    else m

/-- Each round takes an entry off the list, so its length bounds them. -/
def toolMemoryPrune (m : ToolMemory) : ToolMemory := pruneLoop m.lru.length m

/-- The last part of `tool_memory_put_locked`, from the block on, before it prunes. -/
def toolMemoryNewEntry (m : ToolMemory) (id dsml : Bytes) (source : ToolMemorySource) : ToolMemory :=
  let (m', k) := toolMemoryGetBlock m dsml
  match m'.blockAt.lookup k with
  | none => m' -- the index points to no block
  | some b =>
    let h := m'.fresh
    let e := memoryEntry id k (m'.clock + 1) source
    { m' with
      entryAt := m'.entryAt.insert h e
      fresh := m'.fresh + 1
      clock := m'.clock + 1
      blockAt := m'.blockAt.insert k { b with entries := h :: b.entries, refs := b.refs + 1 }
      byId := m'.byId.insert id h
      lru := h :: m'.lru
      entries := m'.entries + 1
      bytes := m'.bytes + e.bytes }

/-- The DSML an entry's block holds. -/
def entryDsml (m : ToolMemory) (e : ToolMemoryEntry) : Option Bytes :=
  (m.blockAt.lookup e.block).map (·.dsml)

/-- `tool_memory_put_locked` before its prune: the entry found, and touched or replaced. -/
def putEntry (m : ToolMemory) (id dsml : Bytes) (source : ToolMemorySource) : ToolMemory :=
  match toolMemoryFindEntry m id with
  | none => toolMemoryNewEntry m id dsml source
  | some h =>
    match m.entryAt.lookup h with
    | none => m -- the index points to no entry
    | some e =>
      if entryDsml m e = some dsml then
        toolMemoryTouch m h { e with source := if source = .ram then .ram else e.source }
      else toolMemoryNewEntry (toolMemoryRemoveEntry m h) id dsml source

def toolMemoryPut (m : ToolMemory) (id dsml : Bytes) (source : ToolMemorySource) : ToolMemory :=
  if id = [] ∨ dsml = [] then m else toolMemoryPrune (putEntry m id dsml source)

/-- The memory afterwards, and the DSML with the entry's source. -/
def toolMemoryLookup (m : ToolMemory) (id : Bytes) : ToolMemory × Option (Bytes × ToolMemorySource) :=
  match toolMemoryFindEntry m id with
  | none => (m, none)
  | some h =>
    match m.entryAt.lookup h with
    | none => (m, none) -- the index points to no entry
    | some e =>
      match m.blockAt.lookup e.block with
      | none => (m, none)
      | some b => (toolMemoryTouch m h e, some (b.dsml, e.source))

end Ds4.Server
