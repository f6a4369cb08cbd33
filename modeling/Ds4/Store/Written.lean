import Ds4.Store.KvStore

/- What the writers of the store leave behind is what the directory scan reads:
   a new checkpoint file is an entry with the fields it was written with
   (`readEntry_storeFile`), and the trailer rewrite and the touch keep an entry's
   identity, its text and its payload (`readEntry_rewriteTrailer`,
   `length_rewrite`). -/
namespace Ds4.Store
open Ds4 Bytes

/-! ## Headers of files -/

theorem span_append_le {a b : Bytes} {off n : Nat} (h : off + n ≤ a.length) : span (a ++ b) off n = span a off n := by
  rw [span, span, List.drop_append_of_le_length (by omega), List.take_append_of_le_length]
  rw [List.length_drop]
  omega

/-- The header is in the first 52 bytes. -/
theorem readHeader_append {a b : Bytes} (h : fixedHeader + 4 ≤ a.length) : readHeader (a ++ b) = readHeader a := by
  have h48 : fixedHeader = 48 := rfl
  have hs : ∀ off n, off + n ≤ 52 → span (a ++ b) off n = span a off n := fun off n hn => span_append_le (by omega)
  have hf : ∀ off n, off + n ≤ 52 → field (a ++ b) off n = field a off n := fun off n hn => by
    rw [field, field, hs off n hn]
  have hlen : (a ++ b).length = a.length + b.length := List.length_append
  rw [readHeader, readHeader, if_neg (show ¬(a ++ b).length < fixedHeader by omega),
    if_neg (show ¬(a ++ b).length < fixedHeader + 4 by omega), if_neg (show ¬a.length < fixedHeader by omega),
    if_neg (show ¬a.length < fixedHeader + 4 by omega), hs 0 3 (by omega)]
  simp (disch := omega) only [hf]

theorem field_lt (data : Bytes) (off n : Nat) : field data off n < 256 ^ n := by
  apply Nat.lt_of_lt_of_le (leGet_lt _)
  apply Nat.pow_le_pow_right (by omega)
  rw [span, List.length_take]
  exact Nat.min_le_left _ _

/-- What a header that is read is like. -/
structure Header.Ok (hd : Header) : Prop where
  quant : hd.quantBits = 2 ∨ hd.quantBits = 4
  model : hd.modelId < 256
  reason : hd.reason ≤ reasonAgentSession
  tokens : hd.tokens < 2 ^ 32
  tokens_ne : hd.tokens ≠ 0
  ctx : hd.ctxSize < 2 ^ 32
  payload : hd.payloadBytes < 2 ^ 64
  text : hd.textBytes < 2 ^ 32

theorem readHeader_eq {data : Bytes} {hd : Header} (h : readHeader data = some hd) :
    fixedHeader + 4 ≤ data.length ∧ hd.textBytes = leGet (span data fixedHeader 4) ∧ hd.Ok := by
  have h1 := field_lt data 7 1
  have h2 := field_lt data 8 4
  have h3 := field_lt data 16 4
  have h4 := field_lt data 40 8
  have h5 := field_lt data 48 4
  simp only [readHeader, Option.ite_none_left_eq_some, Option.ite_none_right_eq_some] at h
  obtain ⟨-, -, -, hl2, hok, he⟩ := h
  obtain rfl := Option.some.inj he
  refine ⟨Nat.not_lt.mp hl2, rfl, ?_⟩
  constructor
  · exact hok.2
  · simpa using h1
  · dsimp only
    split_ifs with hr
    · exact hr
    · simp [reasonUnknown]
  · simpa using h2
  · exact hok.1
  · simpa using h3
  · simpa using h4
  · simpa using h5

/-- A rewritten header says what the old one said, but for the fields given. -/
theorem readHeader_rewrite {data : Bytes} {hd : Header} (h : readHeader data = some hd) (rest : Bytes) (flags hits now : Nat) :
    ∃ hd', readHeader (hd.rewrite (data ++ rest) flags hits now) = some hd' ∧ hd'.quantBits = hd.quantBits ∧
      hd'.modelId = hd.modelId ∧ hd'.tokens = hd.tokens ∧ hd'.ctxSize = hd.ctxSize ∧ hd'.textBytes = hd.textBytes ∧
      hd'.payloadBytes = hd.payloadBytes := by
  obtain ⟨hlen, htext, hok⟩ := readHeader_eq h
  have hdrop : ((data ++ rest).drop fixedHeader).take 4 = span data fixedHeader 4 := by
    rw [← span_append_le (b := rest) hlen, span]
  have htok := Nat.mod_eq_of_lt hok.tokens
  refine ⟨_, readHeader_fill ?_ ?_ hok.quant hok.reason, rfl, ?_, ?_, ?_, ?_, ?_⟩
  · rw [List.length_drop, List.length_append]
    omega
  · rw [htok]
    exact hok.tokens_ne
  · exact Nat.mod_eq_of_lt hok.model
  · exact htok
  · exact Nat.mod_eq_of_lt hok.ctx
  · dsimp only
    rw [hdrop, htext]
  · exact Nat.mod_eq_of_lt hok.payload

theorem length_rewrite (hd : Header) {data : Bytes} (h : fixedHeader ≤ data.length) (flags hits now : Nat) :
    (hd.rewrite data flags hits now).length = data.length := by
  rw [Header.rewrite, List.length_append, length_fillHeader, List.length_drop]
  omega

/-! ## A new file -/

section
variable {a : StoreArgs} {p : StorePlan} {payload trailer : Bytes} {now : Nat}

theorem length_storeFile :
    (storeFile a p payload trailer now).length = fixedHeader + 4 + p.text.length + payload.length + trailer.length := by
  simp only [storeFile, List.length_append, length_fillHeader, length_lePut]
  omega

theorem cU8_quant {i : Int} (h : i = 2 ∨ i = 4) : cU8 i = 2 ∨ cU8 i = 4 := by
  rcases h with rfl | rfl <;> simp [cU8]

theorem reasonCode_le (reason : Option String) : reasonCode reason ≤ reasonAgentSession := by
  unfold reasonCode
  split <;> decide

/-- The entry a new file is. -/
def storedEntry (a : StoreArgs) (p : StorePlan) (payload trailer : Bytes) (now : Nat) (path sha : Bytes) : Entry :=
  { quantBits := cU8 a.engine.routedQuantBits, modelId := cU8 a.engine.modelId, reason := reasonCode a.reason
    tokens := p.storeTokens.length % 2 ^ 32, hits := 0, ctxSize := cU32 a.session.ctx, extFlags := storeFlags a p % 256
    createdAt := now % 2 ^ 64, lastUsed := now % 2 ^ 64, payloadBytes := payload.length, textBytes := p.text.length
    sha, path, fileSize := (storeFile a p payload trailer now).length }

theorem readHeader_storeFile (hq : a.engine.routedQuantBits = 2 ∨ a.engine.routedQuantBits = 4)
    (htok : p.storeTokens.length % 2 ^ 32 ≠ 0) (htext : p.text.length < 2 ^ 32) (hpay : payload.length < 2 ^ 64)
    (path sha : Bytes) :
    readHeader (storeFile a p payload trailer now) = some (storedEntry a p payload trailer now path sha).toHeader := by
  have htake : (lePut 4 p.text.length ++ (p.text ++ (payload ++ trailer))).take 4 = lePut 4 p.text.length :=
    List.take_left' (length_lePut _ _)
  have hlen : 4 ≤ (lePut 4 p.text.length ++ (p.text ++ (payload ++ trailer))).length := by
    rw [List.length_append, length_lePut]
    omega
  have hmodel : cU8 a.engine.modelId % 256 = cU8 a.engine.modelId := Nat.mod_eq_of_lt (by rw [cU8]; omega)
  have hctx : cU32 a.session.ctx % 2 ^ 32 = cU32 a.session.ctx := Nat.mod_eq_of_lt (by rw [cU32]; omega)
  have hget : leGet (lePut 4 p.text.length) = p.text.length := by
    rw [leGet_lePut]
    exact Nat.mod_eq_of_lt htext
  rw [storeFile, readHeader_fill hlen htok (cU8_quant hq) (reasonCode_le _), htake, hget, hmodel, hctx, Nat.mod_eq_of_lt hpay]
  rfl

variable (a trailer now) in
theorem readEntry_storeFile (hq : a.engine.routedQuantBits = 2 ∨ a.engine.routedQuantBits = 4)
    (htok : p.storeTokens.length % 2 ^ 32 ≠ 0) (htext : p.text.length < 2 ^ 32)
    (hpay : fixedHeader + 4 + p.text.length + payload.length < 2 ^ 64) (path sha : Bytes) :
    readEntryFile path sha (storeFile a p payload trailer now) = some (storedEntry a p payload trailer now path sha) := by
  apply readEntryFile_of_header (readHeader_storeFile hq htok htext (by omega) path sha) _ hpay
  rw [length_storeFile]
  exact Nat.le_add_right _ _

theorem fileTextMatches_storeFile (hq : a.engine.routedQuantBits = 2 ∨ a.engine.routedQuantBits = 4)
    (htok : p.storeTokens.length % 2 ^ 32 ≠ 0) (htext : p.text.length < 2 ^ 32) (hpay : payload.length < 2 ^ 64) :
    fileTextMatches (storeFile a p payload trailer now) (sha1BytesHex p.text) p.text = true := by
  have hspan : span (storeFile a p payload trailer now) (fixedHeader + 4) p.text.length = p.text := by
    rw [storeFile, span_append_right (by rw [length_fillHeader]; omega), length_fillHeader,
      span_append_right (by rw [length_lePut]; omega), length_lePut]
    exact span_append_left rfl
  rw [fileTextMatches, readHeader_storeFile hq htok htext hpay [] []]
  simp [storedEntry, hspan]
  simpa using htext

variable (a payload trailer now) in
/-- A file with no tokens is none the scan accepts. -/
theorem readHeader_storeFile_none (htok : p.storeTokens.length % 2 ^ 32 = 0) :
    readHeader (storeFile a p payload trailer now) = none := by
  have hspan : field (storeFile a p payload trailer now) 8 4 = 0 := by
    obtain ⟨-, ⟨ht, -⟩, -⟩ := span_fillHeader (d := storeFile a p payload trailer now) rfl
    rw [field, ht, leGet_lePut]
    exact htok
  rw [Option.eq_none_iff_forall_ne_some]
  intro hd hh
  simp only [readHeader, Option.ite_none_left_eq_some, Option.ite_none_right_eq_some] at hh
  exact hh.2.2.2.2.1.1 hspan

end

/-! ## The trailer rewrite -/

theorem length_ftruncate {data : Bytes} {n : Nat} (h : n ≤ data.length) : ftruncate data n = data.take n := by
  rw [ftruncate, Nat.sub_eq_zero_of_le h, List.replicate_zero, List.append_nil]

section
variable {path sha data : Bytes} {e : Entry} (h : readEntryFile path sha data = some e) (hk : TrailerHooks) (text : Bytes)
  (now : Nat)
include h

theorem readHeader_take : readHeader (data.take (fixedHeader + 4 + e.textBytes + e.payloadBytes)) = some e.toHeader := by
  obtain ⟨hh, -, -, -, hfit⟩ := readEntryFile_eq h
  have hlen : fixedHeader + 4 ≤ (data.take (fixedHeader + 4 + e.textBytes + e.payloadBytes)).length := by
    rw [List.length_take]
    omega
  rw [← readHeader_append (b := data.drop (fixedHeader + 4 + e.textBytes + e.payloadBytes)) hlen, List.take_append_drop, hh]

theorem readEntry_max : fixedHeader + 4 + e.textBytes + e.payloadBytes < 2 ^ 64 := by
  rw [readEntryFile] at h
  split_ifs at h with hlen
  cases hh : readHeader data with
  | none => simp [hh] at h
  | some hd =>
    rw [hh] at h
    dsimp only at h
    split_ifs at h with h1 h2
    obtain rfl := Option.some.inj h
    rw [fixedHeader] at h1 ⊢
    dsimp only
    omega

/-- The size after a rewrite: what the header describes, and the new trailer. -/
theorem length_rewriteTrailerData :
    (rewriteTrailerData hk data text now).length =
      if fixedHeader + 4 + e.textBytes + e.payloadBytes ≤ 2 ^ 63 - 1 then
        fixedHeader + 4 + e.textBytes + e.payloadBytes + (trailerWrite (some hk) text).data.length
      else data.length := by
  obtain ⟨hh, -, -, -, hfit⟩ := readEntryFile_eq h
  have hlen : (ftruncate data (fixedHeader + 4 + e.textBytes + e.payloadBytes) ++ (trailerWrite (some hk) text).data).length =
      fixedHeader + 4 + e.textBytes + e.payloadBytes + (trailerWrite (some hk) text).data.length := by
    rw [length_ftruncate hfit, List.length_append, List.length_take, Nat.min_eq_left hfit]
  rw [rewriteTrailerData, hh]
  dsimp only
  split_ifs with hmax hw
  · rw [length_rewrite _ (by omega), hlen]
  · exact hlen
  · rfl

/-- The rewrite of an accepted file: the same text and payload, then the new trailer. -/
theorem readEntry_rewriteTrailer :
    ∃ e', readEntryFile path sha (rewriteTrailerData hk data text now) = some e' ∧ e'.quantBits = e.quantBits ∧
      e'.modelId = e.modelId ∧ e'.tokens = e.tokens ∧ e'.ctxSize = e.ctxSize ∧ e'.textBytes = e.textBytes := by
  obtain ⟨hh, hsha, hpath, hsize, hfit⟩ := readEntryFile_eq h
  have hmax := readEntry_max h
  have hlen := length_rewriteTrailerData h hk text now
  have htake := readHeader_take h
  have hcut : fixedHeader + 4 ≤ (data.take (fixedHeader + 4 + e.textBytes + e.payloadBytes)).length := by
    rw [List.length_take]
    omega
  rw [rewriteTrailerData, hh] at hlen ⊢
  dsimp only at hlen ⊢
  rw [length_ftruncate hfit] at hlen ⊢
  split_ifs at hlen ⊢ with hend hw
  · obtain ⟨hd', hread, hq, hm, ht, hc, hx, hp⟩ := readHeader_rewrite htake (trailerWrite (some hk) text).data
      (e.extFlags ||| hk.extFlag) e.hits now
    refine ⟨_, readEntryFile_of_header hread ?_ ?_, hq, hm, ht, hc, hx⟩
    · rw [hlen, hx, hp]
      omega
    · rw [hx, hp]
      exact hmax
  · refine ⟨_, readEntryFile_of_header ((readHeader_append hcut).trans htake) ?_ hmax, rfl, rfl, rfl, rfl, rfl⟩
    rw [hlen]
    omega
  · exact ⟨e, h, rfl, rfl, rfl, rfl, rfl⟩

end

/-! ## The two ways of a store -/

theorem existingCompatible_true {kc : KvStore} {path sha text : Bytes} {m q c : Int}
    (h : (existingCompatible kc path sha text m q c).1 = true) :
    ∃ data e, kc.dir.lookup path = some data ∧ readEntryFile path sha data = some e ∧ entryCompatible kc e m q c = true ∧
      fileTextMatches data sha text = true ∧ (existingCompatible kc path sha text m q c).2 = kc := by
  cases hl : kc.dir.lookup path with
  | none => simp [existingCompatible, hl] at h
  | some data =>
    cases he : readEntryFile path sha data with
    | none => simp [existingCompatible, hl, he] at h
    | some e =>
      simp only [existingCompatible, hl, he] at h ⊢
      split_ifs at h ⊢ with hc
      obtain ⟨hc, hm⟩ := Bool.and_eq_true_iff.mp hc
      exact ⟨data, e, rfl, he, hc, hm, rfl⟩

theorem existingCompatible_false {kc : KvStore} {path sha text : Bytes} {m q c : Int}
    (h : (existingCompatible kc path sha text m q c).1 = false) :
    (existingCompatible kc path sha text m q c).2 = kc ∨
      (existingCompatible kc path sha text m q c).2 = { kc with dir := kc.dir.erase path } := by
  cases hl : kc.dir.lookup path with
  | none => simp [existingCompatible, hl]
  | some data =>
    cases he : readEntryFile path sha data with
    | none => simp [existingCompatible, hl, he]
    | some e =>
      simp only [existingCompatible, hl, he] at h ⊢
      split_ifs at h ⊢ with hc
      exact Or.inr rfl

theorem scan_keyPath (text data : Bytes) : scan ⟨keyPath text, data⟩ = readEntryFile (keyPath text) (sha1BytesHex text) data := by
  rw [scan, keyPath, shaHexName_pathForSha, Option.bind_some]

section
variable {kc : KvStore} {host : Host} {a : StoreArgs} {p : StorePlan}

/-- The file under the key is kept. -/
theorem store_kept (hp : storePlan kc a = some p) (hc : (existingFile kc a p).1 = true) :
    storeLivePrefixText kc host a = (rewriteTrailer kc (keyPath p.text) p.text a.hooks (host.clock 0), true) := by
  obtain ⟨_, _, -, -, -, -, hkc⟩ := existingCompatible_true hc
  have hpair : existingFile kc a p = (true, kc) := Prod.ext hc hkc
  rw [storeLivePrefixText, hp]
  dsimp only
  rw [hpair]

/-- A new file is written under the key. -/
theorem store_new (hp : storePlan kc a = some p) (hc : (existingFile kc a p).1 = false) :
    storeLivePrefixText kc host a = storeNew (existingFile kc a p).2 host a p (keyPath p.text) := by
  have hpair : existingFile kc a p = (false, (existingFile kc a p).2) := Prod.ext hc rfl
  rw [storeLivePrefixText, hp]
  dsimp only
  rw [hpair]

end

end Ds4.Store
