import Ds4.Directory
import Ds4.Store.KvFile

/- The disk KV store of ds4_kvstore.c over one directory: the scan, eviction by
   score, the writer of a checkpoint with its in-place trailer rewrite, the
   lookup of a prompt's longest stored prefix, and the load with its touch.

   Correspondence (C ↔ Lean), every function under its own name in camel case:
     `kv_cache_refresh`, `ds4_kvstore_evict`, `ds4_kvstore_open`
     `ds4_kvstore_entry_eviction_score`, the victim loop   ↔ `entryEvictionScore`, `victimIndex`
     `ds4_kvstore_file_size_fits`                          ↔ `fileSizeFits`, with the file's size
     `kv_cache_existing_compatible`, `kv_cache_file_text_matches`, `kv_cache_rewrite_trailer`
     `ds4_kvstore_store_live_prefix_text`                  ↔ `storePlan`, then `storeLivePrefixText`
     `ds4_kvstore_find_text_prefix`, `ds4_kvstore_try_load_text`, `ds4_kvstore_touch_file`
   File operations succeed: a `rename` over the temporary file is the insertion
   of a whole file, and a read sees what was written. What the store takes from
   the engine and the session is in `KvEngine` and `KvSession`; the operating
   system's directory order and its clock are in `Host`. Log lines are left out. -/
namespace Ds4.Store
open Ds4 Bytes

/-- The files of the directory, by name. -/
abbrev Dir := AList fun _ : Bytes => Bytes

structure Options where
  minTokens : Int
  coldMaxTokens : Int
  continuedIntervalTokens : Int
  boundaryTrimTokens : Int
  boundaryAlignTokens : Int

structure KvStore where
  enabled : Bool
  dir : Dir
  budgetBytes : Nat
  rejectDifferentQuant : Bool
  opt : Options
  continuedLastStoreTokens : Int
  entry : List Entry

/-- What an operation sees of the operating system: an order of the directory's
   entries, and the value of each call of `time`. -/
structure Host where
  readdir : Dir → List (Sigma fun _ : Bytes => Bytes)
  perm : ∀ d, (readdir d).Perm d.entries
  clock : Nat → Nat

structure KvEngine where
  routedQuantBits : Int
  modelId : Int
  tokenText : Int → Bytes
  tokenizeRenderedChat : Bytes → List Int

structure KvSession where
  tokens : Option (List Int)
  ctx : Int
  /-- What `ds4_session_stage_payload` stages, if it succeeds. -/
  payload : Option Bytes

/-- What a trailer hook puts into the file, and the count it reports if it succeeds. -/
structure Trailer where
  data : Bytes
  writtenBytes : Option Nat

structure TrailerHooks where
  extFlag : Nat
  serializedSize : Option (Bytes → Option Nat)
  write : Option (Bytes → Trailer)

/-- `(uint32_t)i`, `(uint8_t)i`. -/
def cU32 (i : Int) : Nat := (i % 4294967296).toNat
def cU8 (i : Int) : Nat := (i % 256).toNat

/-! ## Eviction -/

structure EvictionContext where
  text : Bytes
  modelId : Nat
  quantBits : Nat
  ctxSize : Nat
  rejectDifferentQuant : Bool

def scan (f : Sigma fun _ : Bytes => Bytes) : Option Entry :=
  (shaHexName f.1).bind fun sha => readEntryFile f.1 sha f.2

def refresh (kc : KvStore) (host : Host) : KvStore :=
  if kc.enabled then { kc with entry := (host.readdir kc.dir).filterMap scan } else kc

def incomingSupersedesContinued (e : Entry) (incoming : Option EvictionContext) : Bool :=
  match incoming with
  | none => false
  | some inc =>
    e.reason == reasonContinued && e.textBytes != 0 && decide (e.textBytes < inc.text.length) &&
    e.modelId == inc.modelId && !(inc.rejectDifferentQuant && e.quantBits != inc.quantBits) &&
    decide (inc.ctxSize ≤ e.ctxSize) && sha1BytesHex (inc.text.take e.textBytes) == e.sha

def reasonIsAnchor (reason : Nat) : Bool :=
  reason == reasonCold || reason == reasonEvict || reason == reasonShutdown

/-- `DS4_KVSTORE_HIT_HALF_LIFE_SECONDS`. -/
def hitHalfLifeSeconds : Nat := 6 * 60 * 60

def entryEvictionScore (e : Entry) (now : Nat) (incoming : Option EvictionContext) : Float :=
  if e.fileSize = 0 then 0.0
  else
    let usedAt := if e.lastUsed ≠ 0 then e.lastUsed else e.createdAt
    let hits : Float :=
      if usedAt = 0 then 0.0
      else if now > usedAt then
        let decayed := Float.ofNat e.hits * Float.exp2 (-(Float.ofNat (now - usedAt)) / Float.ofNat hitHalfLifeSeconds)
        if decayed < 0.01 then 0.0 else decayed
      else Float.ofNat e.hits
    let score := (hits + 1.0) * Float.ofNat e.tokens / Float.ofNat e.fileSize
    let score := if reasonIsAnchor e.reason then score * 2.0 else score
    if incomingSupersedesContinued e incoming then
      let h := if hits > 0.0 then hits / (hits + 1.0) else 0.0
      score * (0.05 + 0.45 * h)
    else score

/-- The entry of the lowest score, the least recently used one among equals. -/
def victimIndex (score : Entry → Float) : List Entry → Nat
  | [] => 0
  | e :: es =>
    ((es.zipIdx 1).foldl (fun (v : Nat × Entry) (x : Entry × Nat) =>
      if score x.1 < score v.2 ∨ (score x.1 == score v.2 ∧ x.1.lastUsed < v.2.lastUsed) then (x.2, x.1) else v) (0, e)).1

/-- The store with the victims unlinked, and the victims in order. -/
def evict (kc : KvStore) (host : Host) (now extraBytes : Nat) (incoming : Option EvictionContext) : KvStore × List Entry :=
  if kc.enabled = false ∨ kc.budgetBytes = 0 then (kc, [])
  else if extraBytes > kc.budgetBytes then (kc, [])
  else
    let kc := refresh kc host
    let total := (kc.entry.map Entry.fileSize).sum % 2 ^ 64
    let (gone, kept) := trim (victimIndex fun e => entryEvictionScore e now incoming) Entry.fileSize
      (kc.budgetBytes - extraBytes) kc.entry.length total kc.entry
    ({ kc with dir := gone.foldl (fun d e => d.erase e.path) kc.dir, entry := kept }, gone)

/-- `DS4_KVSTORE_DEFAULT_MB`. -/
def defaultMb : Nat := 4096

def openStore (dir : Dir) (host : Host) (budgetMb : Nat) (rejectDifferentQuant : Bool) (opt : Options) : KvStore :=
  let budgetMb := if budgetMb = 0 then defaultMb else budgetMb
  (evict { enabled := true, dir, budgetBytes := budgetMb * 1024 * 1024 % 2 ^ 64, rejectDifferentQuant, opt
           continuedLastStoreTokens := 0, entry := [] } host (host.clock 0) 0 none).1

/-! ## Storing -/

def kvCacheFileSizeBytes (textBytes payloadBytes trailerBytes : Nat) : Option Nat :=
  if 2 ^ 64 - 1 - (fixedHeader + 4) < textBytes ∨ 2 ^ 64 - 1 - (fixedHeader + 4) - textBytes < payloadBytes ∨
      2 ^ 64 - 1 - (fixedHeader + 4) - textBytes - payloadBytes < trailerBytes then none
  else some (fixedHeader + 4 + textBytes + payloadBytes + trailerBytes)

def kvCacheBudgetRequired (fileBytes : Nat) : Option Nat :=
  let slack := if fileBytes % 100 ≠ 0 then fileBytes / 100 + 1 else fileBytes / 100
  if 2 ^ 64 - 1 - fileBytes < slack then none else some (fileBytes + slack)

/-- The file's size, if the file fits the budget with its slack. -/
def fileSizeFits (kc : KvStore) (textBytes payloadBytes trailerBytes : Nat) : Option Nat := do
  let fileBytes ← kvCacheFileSizeBytes textBytes payloadBytes trailerBytes
  if kc.budgetBytes = 0 then some fileBytes
  else
    let required ← kvCacheBudgetRequired fileBytes
    if required ≤ kc.budgetBytes then some fileBytes else none

def fileTextMatches (data sha text : Bytes) : Bool :=
  decide (text.length < 2 ^ 32) &&
  match readHeader data with
  | none => false
  | some hdr =>
    let stored := span data (fixedHeader + 4) hdr.textBytes
    hdr.textBytes == text.length && stored.length == hdr.textBytes && sha1BytesHex stored == sha && stored == text

/-- Whether the entry serves the engine and the context as they are. -/
def entryCompatible (kc : KvStore) (e : Entry) (modelId quantBits ctxSize : Int) : Bool :=
  e.modelId == cU8 modelId && !(kc.rejectDifferentQuant && e.quantBits != cU8 quantBits) && decide (e.ctxSize ≤ cU32 ctxSize)

/-- An incompatible file that is a checkpoint is unlinked. -/
def existingCompatible (kc : KvStore) (path sha text : Bytes) (modelId quantBits ctxSize : Int) : Bool × KvStore :=
  match kc.dir.lookup path with
  | none => (false, kc)
  | some data =>
    match readEntryFile path sha data with
    | none => (false, kc)
    | some e =>
      if entryCompatible kc e modelId quantBits ctxSize && fileTextMatches data sha text then (true, kc)
      else (false, { kc with dir := kc.dir.erase path })

def trailerSerializedSize (hooks : Option TrailerHooks) (text : Bytes) : Option Nat :=
  match hooks.bind TrailerHooks.serializedSize with
  | none => some 0
  | some size => size (cstr text)

def trailerWrite (hooks : Option TrailerHooks) (text : Bytes) : Trailer :=
  match hooks.bind TrailerHooks.write with
  | none => ⟨[], some 0⟩
  | some write => write (cstr text)

/-- `ftruncate`, which also extends. -/
def ftruncate (data : Bytes) (n : Nat) : Bytes := data.take n ++ List.replicate (n - data.length) 0

/-- A new header over the old one. -/
def Header.rewrite (hdr : Header) (data : Bytes) (extFlags hits now : Nat) : Bytes :=
  fillHeader hdr.modelId hdr.quantBits hdr.reason extFlags hdr.tokens hits hdr.ctxSize hdr.createdAt now hdr.payloadBytes ++
    data.drop fixedHeader

/-- The size the hooks announce, if there is something for the rewrite to do. -/
def rewriteEstimate (hooks : Option TrailerHooks) (text : Bytes) : Option TrailerHooks := do
  let h ← hooks
  let _ ← h.write
  let _ ← h.serializedSize
  let est ← trailerSerializedSize hooks text
  if est = 0 then none else some h

def rewriteTrailerData (h : TrailerHooks) (data text : Bytes) (now : Nat) : Bytes :=
  match readHeader data with
  | none => data
  | some hdr =>
    let fileEnd := fixedHeader + 4 + hdr.textBytes + hdr.payloadBytes
    if fileEnd ≤ 2 ^ 63 - 1 then
      let tr := trailerWrite (some h) text
      let data := ftruncate data fileEnd ++ tr.data
      if tr.writtenBytes.any (0 < ·) then hdr.rewrite data (hdr.extFlags ||| h.extFlag) hdr.hits now else data
    else data

def rewriteTrailer (kc : KvStore) (path text : Bytes) (hooks : Option TrailerHooks) (now : Nat) : KvStore :=
  match rewriteEstimate hooks text, kc.dir.lookup path with
  | some h, some data => { kc with dir := kc.dir.insert path (rewriteTrailerData h data text now) }
  | _, _ => kc

def reasonCode (reason : Option String) : Nat :=
  match reason with
  | some "cold" => reasonCold
  | some "continued" => reasonContinued
  | some "evict" => reasonEvict
  | some "shutdown" => reasonShutdown
  | some "agent-system" => reasonAgentSystem
  | some "agent-session" => reasonAgentSession
  | _ => reasonUnknown

/-- The arguments of one store. -/
structure StoreArgs where
  engine : KvEngine
  session : KvSession
  tokens : Option (List Int)
  storeLen : Int
  reason : Option String
  cacheTextOverride : Option Bytes
  cacheTextExt : Nat
  hooks : Option TrailerHooks

/-- What a store that goes ahead has settled before it looks at the directory. -/
structure StorePlan where
  storeTokens : List Int
  text : Bytes
  textOverride : Bool
  trailerEstBytes : Nat

def renderTokensText (en : KvEngine) (tokens : List Int) : Bytes := tokens.flatMap en.tokenText

/-- The key text: the override if it has a byte, or the text of the tokens. -/
def storeText (a : StoreArgs) (storeTokens : List Int) : Bytes × Bool :=
  match a.cacheTextOverride with
  | some o => if cstr o ≠ [] then (cstr o, true) else (renderTokensText a.engine storeTokens, false)
  | none => (renderTokensText a.engine storeTokens, false)

def storePlan (kc : KvStore) (a : StoreArgs) : Option StorePlan :=
  match a.tokens with
  | none => none
  | some tokens =>
    if kc.enabled = false ∨ a.storeLen < kc.opt.minTokens then none
    else
      let storeTokens := tokens.take a.storeLen.toNat
      if a.engine.routedQuantBits ≠ 2 ∧ a.engine.routedQuantBits ≠ 4 then none
      else match a.session.tokens with
        | none => none
        | some live =>
          if live.length ≠ storeTokens.length ∨ storeTokens.isPrefixOf live = false then none
          else
            let (text, textOverride) := storeText a storeTokens
            if text.length ≥ 2 ^ 32 then none
            else match trailerSerializedSize a.hooks text with
              | none => none
              | some trailerEstBytes => some { storeTokens, text, textOverride, trailerEstBytes }

/-- The extension flags of a new file. -/
def storeFlags (a : StoreArgs) (p : StorePlan) : Nat :=
  let flags := if p.trailerEstBytes > 0 then (a.hooks.map TrailerHooks.extFlag).getD 0 else 0
  if p.textOverride then flags ||| a.cacheTextExt else flags

/-- The bytes of a new checkpoint file. -/
def storeFile (a : StoreArgs) (p : StorePlan) (payload trailer : Bytes) (now : Nat) : Bytes :=
  fillHeader (cU8 a.engine.modelId) (cU8 a.engine.routedQuantBits) (reasonCode a.reason) (storeFlags a p) p.storeTokens.length
    0 (cU32 a.session.ctx) now now payload.length ++ (lePut 4 p.text.length ++ (p.text ++ (payload ++ trailer)))

/-- The part of a store that writes a new file. -/
def storeNew (kc : KvStore) (host : Host) (a : StoreArgs) (p : StorePlan) (path : Bytes) : KvStore × Bool :=
  match a.session.payload with
  | none => (kc, false)
  | some payload =>
    match fileSizeFits kc p.text.length payload.length p.trailerEstBytes with
    | none => (kc, false)
    | some estFileBytes =>
      let incoming : EvictionContext :=
        { text := p.text, modelId := cU8 a.engine.modelId, quantBits := cU8 a.engine.routedQuantBits
          ctxSize := cU32 a.session.ctx, rejectDifferentQuant := kc.rejectDifferentQuant }
      let kc := (evict kc host (host.clock 0) estFileBytes (some incoming)).1
      let trailer := trailerWrite a.hooks p.text
      match trailer.writtenBytes with
      | none => (kc, false)
      | some trailerBytes =>
        match fileSizeFits kc p.text.length payload.length trailerBytes with
        | none => (kc, false)
        | some _ => ({ kc with dir := kc.dir.insert path (storeFile a p payload trailer.data (host.clock 1)) }, true)

/-- The name of the file a text is stored under. -/
def keyPath (text : Bytes) : Bytes := pathForSha (sha1BytesHex text)

/-- What the store finds under its key. -/
def existingFile (kc : KvStore) (a : StoreArgs) (p : StorePlan) : Bool × KvStore :=
  existingCompatible kc (keyPath p.text) (sha1BytesHex p.text) p.text a.engine.modelId a.engine.routedQuantBits a.session.ctx

def storeLivePrefixText (kc : KvStore) (host : Host) (a : StoreArgs) : KvStore × Bool :=
  match storePlan kc a with
  | none => (kc, false)
  | some p =>
    match existingFile kc a p with
    | (true, kc) => (rewriteTrailer kc (keyPath p.text) p.text a.hooks (host.clock 0), true)
    | (false, kc) => storeNew kc host a p (keyPath p.text)

/-! ## Lookup and load -/

/-- Whether an entry is one the lookup considers at all. -/
def lookupAllows (kc : KvStore) (e : Entry) (promptBytes : Nat) (modelId quantBits ctxSize : Int) : Bool :=
  decide (e.textBytes ≤ promptBytes) && decide (kc.opt.minTokens ≤ cInt e.tokens) && e.modelId == cU8 modelId &&
  decide (e.ctxSize ≤ cU32 ctxSize) && !(kc.rejectDifferentQuant && e.quantBits != cU8 quantBits)

/-- Whether `e` is to be preferred to the best entry so far, if it matches. -/
def betterThan (e : Entry) (best : Option (Nat × Entry)) : Bool :=
  match best with
  | none => true
  | some (_, b) => !(decide (e.textBytes < b.textBytes) || (e.textBytes == b.textBytes && decide (e.tokens ≤ b.tokens)))

def findStep (kc : KvStore) (prompt : Bytes) (modelId quantBits ctxSize : Int) (best : Option (Nat × Entry)) (x : Entry × Nat) :
    Option (Nat × Entry) :=
  if lookupAllows kc x.1 prompt.length modelId quantBits ctxSize && betterThan x.1 best &&
      sha1BytesHex (prompt.take x.1.textBytes) == x.1.sha then some (x.2, x.1)
  else best

def findTextPrefix (kc : KvStore) (host : Host) (promptText : Option Bytes) (modelId quantBits ctxSize : Int) :
    KvStore × Option Nat :=
  match promptText with
  | none => (kc, none)
  | some p =>
    let kc := refresh kc host
    (kc, (kc.entry.zipIdx.foldl (findStep kc (cstr p) modelId quantBits ctxSize) none).map Prod.fst)

def touchFile (kc : KvStore) (path : Bytes) (hits now : Nat) : KvStore :=
  match kc.dir.lookup path with
  | none => kc
  | some data =>
    match readHeader data with
    | none => kc
    | some hdr => { kc with dir := kc.dir.insert path (hdr.rewrite data hdr.extFlags hits now) }

structure LoadResult where
  tokens : Int
  textBytes : Nat
  quantBits : Nat
  extFlags : Nat
  consumed : Bool
  path : Bytes
  effectivePrompt : List Int

/-- Whether the file's text is the prefix of the prompt its name promises. -/
def cachedTextOk (data : Bytes) (hdr : Header) (sha prompt : Bytes) (modelId : Int) : Bool :=
  let cached := span data (fixedHeader + 4) hdr.textBytes
  hdr.modelId == cU8 modelId && decide (hdr.textBytes ≤ prompt.length) && cached.length == hdr.textBytes &&
  sha1BytesHex cached == sha && cached.isPrefixOf prompt

/-- What a hit does to the store: a long checkpoint is consumed, another is touched. -/
def loadHit (kc : KvStore) (path : Bytes) (hdr : Header) (now : Nat) : Bool × KvStore :=
  let loaded := cInt hdr.tokens
  let kc := { kc with continuedLastStoreTokens := loaded }
  if 0 < kc.opt.coldMaxTokens ∧ kc.opt.coldMaxTokens < loaded then (true, { kc with dir := kc.dir.erase path })
  else (false, touchFile kc path (hdr.hits + 1) now)

/-- `loadPayload rest n` is the session's token history after
   `ds4_session_load_payload` of `n` bytes of `rest`, if it succeeds. -/
def tryLoadText (kc : KvStore) (host : Host) (en : KvEngine) (ctx : Int) (loadPayload : Bytes → Nat → Option (List Int))
    (promptText : Option Bytes) : KvStore × Option LoadResult :=
  match promptText with
  | none => (kc, none)
  | some p =>
    if kc.enabled = false then (kc, none)
    else if en.routedQuantBits ≠ 2 ∧ en.routedQuantBits ≠ 4 then (kc, none)
    else
      let (kc, idx) := findTextPrefix kc host (some p) en.modelId en.routedQuantBits ctx
      match idx.bind (kc.entry[·]?) with
      | none => (kc, none)
      | some e =>
        match (kc.dir.lookup e.path).bind fun data => (readHeader data).map (data, ·) with
        | none => (kc, none)
        | some (data, hdr) =>
          if cachedTextOk data hdr e.sha (cstr p) en.modelId = false then (kc, none)
          else match loadPayload (data.drop (fixedHeader + 4 + hdr.textBytes)) hdr.payloadBytes with
            | none => (kc, none)
            | some loadedTokens =>
              if (loadedTokens.length : Int) ≠ cInt hdr.tokens then ({ kc with dir := kc.dir.erase e.path }, none)
              else
                let (consumed, kc) := loadHit kc e.path hdr (host.clock 0)
                (kc, some { tokens := cInt hdr.tokens, textBytes := hdr.textBytes, quantBits := hdr.quantBits, extFlags := hdr.extFlags
                            consumed, path := e.path
                            effectivePrompt := loadedTokens ++ en.tokenizeRenderedChat ((cstr p).drop hdr.textBytes) })

end Ds4.Store
