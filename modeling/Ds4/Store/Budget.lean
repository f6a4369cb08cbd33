import Ds4.Store.Written

/- The budget of the disk KV store over whole runs: `total` is the size of the
   files the scan accepts, and `evict` brings it to the budget less the bytes
   asked for, one victim at a time and none too many (`evict_total`,
   `evict_needed`).

   The writer of a new file keeps the budget because it asks for the file's
   announced size first. The trailer rewrite of a kept file asks for nothing:
   `StoreArgs.Fits` says when that is harmless, and `kept_file_overflows` is a
   run where it is not. -/
namespace Ds4.Store
open Ds4 Bytes

/-! ## The total of a directory -/

/-- What one file counts for. -/
def acceptedBytes (name data : Bytes) : Nat := ((scan ⟨name, data⟩).map Entry.fileSize).getD 0

/-- The sizes of the files the scan accepts. -/
def total (d : Dir) : Nat := weight acceptedBytes d

/-- An entry is a file of the directory. -/
def Listed (d : Dir) (e : Entry) : Prop := ∃ data, d.lookup e.path = some data ∧ scan ⟨e.path, data⟩ = some e

theorem scan_eq {name data : Bytes} {e : Entry} (h : scan ⟨name, data⟩ = some e) :
    shaHexName name = some e.sha ∧ readEntryFile name e.sha data = some e ∧ e.path = name ∧ e.fileSize = data.length := by
  obtain ⟨sha, hn, he⟩ := Option.bind_eq_some_iff.mp h
  obtain ⟨-, hsha, hpath, hsize, -⟩ := readEntryFile_eq he
  rw [hsha]
  exact ⟨hn, he, hpath, hsize⟩

theorem acceptedBytes_le (name data : Bytes) : acceptedBytes name data ≤ data.length := by
  rw [acceptedBytes]
  cases h : scan ⟨name, data⟩ with
  | none => exact Nat.zero_le _
  | some e => exact (scan_eq h).2.2.2.le

theorem acceptedBytes_of_scan {name data : Bytes} {e : Entry} (h : scan ⟨name, data⟩ = some e) :
    acceptedBytes name data = data.length := by
  rw [acceptedBytes, h]
  exact (scan_eq h).2.2.2

theorem sum_filterMap_scan (l : List (Sigma fun _ : Bytes => Bytes)) :
    ((l.filterMap scan).map Entry.fileSize).sum = (l.map fun f => acceptedBytes f.1 f.2).sum := by
  induction l with
  | nil => rfl
  | cons f l ih =>
    cases h : scan f with
    | none => simp [List.filterMap_cons_none h, ih, acceptedBytes, h]
    | some e => simp [List.filterMap_cons_some h, ih, acceptedBytes, h]

section
variable {kc : KvStore} {host : Host} (hen : kc.enabled = true)
include hen

theorem refresh_sum : ((refresh kc host).entry.map Entry.fileSize).sum = total kc.dir := by
  rw [refresh, if_pos hen]
  exact (sum_filterMap_scan _).trans (weight_perm (host.perm kc.dir))

theorem refresh_listed {e : Entry} (he : e ∈ (refresh kc host).entry) : Listed kc.dir e := by
  rw [refresh, if_pos hen] at he
  obtain ⟨⟨name, data⟩, hf, hs⟩ := List.mem_filterMap.mp he
  obtain ⟨-, -, hpath, -⟩ := scan_eq hs
  refine ⟨data, ?_, ?_⟩
  · rw [hpath]
    exact AList.mem_lookup_iff.mpr ((host.perm kc.dir).mem_iff.mp hf)
  · rw [hpath]
    exact hs

theorem refresh_nodup : ((refresh kc host).entry.map Entry.path).Nodup := by
  rw [refresh, if_pos hen]
  have hsub : ∀ l : List (Sigma fun _ : Bytes => Bytes), ((l.filterMap scan).map Entry.path).Sublist (l.map Sigma.fst) := by
    intro l
    induction l with
    | nil => exact List.Sublist.refl _
    | cons f l ih =>
      cases h : scan f with
      | none =>
        rw [List.filterMap_cons_none h]
        exact ih.cons _
      | some e =>
        rw [List.filterMap_cons_some h, List.map_cons, List.map_cons, (scan_eq h).2.2.1]
        exact ih.cons_cons _
  apply (hsub _).nodup
  have hp := (host.perm kc.dir).map Sigma.fst
  exact hp.nodup_iff.mpr kc.dir.nodupKeys

end

/-- Unlinking listed files takes their sizes off the total. -/
theorem total_unlink (gone : List Entry) : ∀ d : Dir, (gone.map Entry.path).Nodup → (∀ e ∈ gone, Listed d e) →
    (gone.map Entry.fileSize).sum + total (gone.foldl (fun d e => d.erase e.path) d) = total d := by
  induction gone with
  | nil =>
    intro d _ _
    simp
  | cons e gone ih =>
    intro d hnd hl
    obtain ⟨hnot, hnd⟩ := List.nodup_cons.mp hnd
    obtain ⟨data, hd, hs⟩ := hl e (List.mem_cons_self ..)
    have hrest : ∀ e' ∈ gone, Listed (d.erase e.path) e' := by
      intro e' he'
      obtain ⟨data', hd', hs'⟩ := hl e' (List.mem_cons_of_mem _ he')
      have hne : e'.path ≠ e.path := fun hp => hnot (hp ▸ List.mem_map_of_mem he')
      exact ⟨data', by rw [AList.lookup_erase_ne hne, hd'], hs'⟩
    have hw := weight_erase (f := acceptedBytes) hd
    rw [acceptedBytes_of_scan hs, ← (scan_eq hs).2.2.2] at hw
    have := ih (d.erase e.path) hnd hrest
    simp only [List.map_cons, List.sum_cons, List.foldl_cons, total] at *
    omega

/-! ## Eviction -/

theorem victimIndex_lt (score : Entry → Float) (l : List Entry) (h : l ≠ []) : victimIndex score l < l.length := by
  cases l with
  | nil => exact absurd rfl h
  | cons e es =>
    rw [victimIndex, List.length_cons]
    -- every index the scan has seen is one of the list
    have hfold : ∀ (xs : List (Entry × Nat)) (v : Nat × Entry), v.1 < es.length + 1 →
        (∀ x ∈ xs, x.2 < es.length + 1) →
        (xs.foldl (fun (v : Nat × Entry) (x : Entry × Nat) =>
          if score x.1 < score v.2 ∨ (score x.1 == score v.2 ∧ x.1.lastUsed < v.2.lastUsed) then (x.2, x.1) else v) v).1 <
          es.length + 1 := by
      intro xs
      induction xs with
      | nil =>
        intro v hv _
        exact hv
      | cons x xs ih =>
        intro v hv hxs
        rw [List.foldl_cons]
        apply ih
        · split_ifs
          · exact hxs x (List.mem_cons_self ..)
          · exact hv
        · exact fun y hy => hxs y (List.mem_cons_of_mem _ hy)
    apply hfold _ _ (Nat.succ_pos _)
    intro x hx
    obtain ⟨x, i⟩ := x
    have := (List.mem_zipIdx hx).2.1
    omega

section
variable (kc : KvStore) (host : Host) (now extra : Nat) (incoming : Option EvictionContext)

/-- What an eviction leaves as it was. -/
theorem evict_frame : (evict kc host now extra incoming).1.enabled = kc.enabled ∧
    (evict kc host now extra incoming).1.budgetBytes = kc.budgetBytes ∧
    (evict kc host now extra incoming).1.opt = kc.opt ∧
    (evict kc host now extra incoming).1.rejectDifferentQuant = kc.rejectDifferentQuant := by
  unfold evict refresh
  split_ifs <;> exact ⟨rfl, rfl, rfl, rfl⟩

theorem evict_dir : (evict kc host now extra incoming).1.dir =
    (evict kc host now extra incoming).2.foldl (fun d e => d.erase e.path) kc.dir := by
  unfold evict refresh
  split_ifs <;> rfl

variable (hen : kc.enabled = true) (hB : kc.budgetBytes ≠ 0) (hx : extra ≤ kc.budgetBytes) (ht : total kc.dir < 2 ^ 64)
include hen hB hx ht

/-- The victims and what stays are a trim of the scan. -/
theorem evict_eq : ∃ gone kept, trim (victimIndex fun e => entryEvictionScore e now incoming) Entry.fileSize
      (kc.budgetBytes - extra) (refresh kc host).entry.length ((refresh kc host).entry.map Entry.fileSize).sum
      (refresh kc host).entry = (gone, kept) ∧
    (evict kc host now extra incoming).2 = gone := by
  have hbud : (refresh kc host).budgetBytes = kc.budgetBytes := by rw [refresh, if_pos hen]
  have hmod : ((refresh kc host).entry.map Entry.fileSize).sum % 2 ^ 64 = ((refresh kc host).entry.map Entry.fileSize).sum :=
    Nat.mod_eq_of_lt (by rw [refresh_sum hen]; exact ht)
  refine ⟨_, _, rfl, ?_⟩
  rw [evict, if_neg (by simp [hen, hB]), if_neg (by omega)]
  dsimp only
  rw [hmod, hbud]

/-- After an eviction the bytes asked for fit. -/
theorem evict_total : total (evict kc host now extra incoming).1.dir + extra ≤ kc.budgetBytes := by
  obtain ⟨gone, kept, htrim, hgone⟩ := evict_eq _ host now _ incoming hen hB hx ht
  have hfits := trim_fits (victimIndex_lt fun e => entryEvictionScore e now incoming) Entry.fileSize
    (kc.budgetBytes - extra) (refresh kc host).entry.length (refresh kc host).entry le_rfl
  have hperm := trim_perm (victimIndex fun e => entryEvictionScore e now incoming) Entry.fileSize
    (kc.budgetBytes - extra) (refresh kc host).entry.length (refresh kc host).entry
  rw [htrim] at hfits hperm
  dsimp only at hfits hperm
  have hnd : (gone.map Entry.path).Nodup := by
    have hall := (hperm.map Entry.path).nodup_iff.mpr (refresh_nodup hen)
    rw [List.map_append] at hall
    exact hall.of_append_left
  have hlisted : ∀ e ∈ gone, Listed kc.dir e := fun e he =>
    refresh_listed hen (hperm.mem_iff.mp (List.mem_append_left _ he))
  have hsum := (hperm.map Entry.fileSize).sum_eq
  rw [List.map_append, List.sum_append, refresh_sum hen] at hsum
  have hunlink := total_unlink gone kc.dir hnd hlisted
  rw [evict_dir, hgone]
  omega

end

/-- A file goes only while the total still there and the bytes asked for do not fit. -/
theorem evict_needed {kc : KvStore} {host : Host} {now extra : Nat} {incoming : Option EvictionContext}
    (ht : total kc.dir < 2 ^ 64) {p q : List Entry} {e : Entry} (h : (evict kc host now extra incoming).2 = p ++ e :: q) :
    kc.budgetBytes + (p.map Entry.fileSize).sum < total kc.dir + extra := by
  by_cases hoff : kc.enabled = false ∨ kc.budgetBytes = 0
  · rw [evict, if_pos hoff] at h
    simp at h
  · by_cases hbig : extra > kc.budgetBytes
    · rw [evict, if_neg hoff, if_pos hbig] at h
      simp at h
    · simp only [not_or, Bool.not_eq_false] at hoff
      obtain ⟨gone, kept, htrim, hgone⟩ := evict_eq _ host now _ incoming hoff.1 hoff.2
        (Nat.not_lt.mp hbig) ht
      have := trim_needed (victimIndex fun e => entryEvictionScore e now incoming) Entry.fileSize
        (kc.budgetBytes - extra) (refresh kc host).entry.length (refresh kc host).entry p q e
        (by rw [htrim, ← h, hgone])
      rw [refresh_sum hoff.1] at this
      omega

/-! ## Writers -/

theorem total_erase_le (d : Dir) (name : Bytes) : total (d.erase name) ≤ total d := weight_erase_le name

theorem total_insert_le (d : Dir) (name data : Bytes) : total (d.insert name data) ≤ data.length + total (d.erase name) := by
  rw [total, weight_insert]
  exact Nat.add_le_add_right (acceptedBytes_le name data) _

/-- A listed file's bytes are part of the total. -/
theorem total_listed {d : Dir} {name data : Bytes} {e : Entry} (hd : d.lookup name = some data) (hs : scan ⟨name, data⟩ = some e) :
    data.length + total (d.erase name) = total d := by
  rw [total, total, ← weight_erase hd, acceptedBytes_of_scan hs]

/-- A listed file rewritten in its place. -/
theorem total_rewrite_le {d : Dir} {name data data' : Bytes} {e : Entry} (hd : d.lookup name = some data)
    (hs : scan ⟨name, data⟩ = some e) (hlen : data'.length ≤ data.length) : total (d.insert name data') ≤ total d := by
  have h1 := total_insert_le d name data'
  have h2 := total_listed hd hs
  omega

theorem fileSizeFits_eq {kc : KvStore} {text payload trailer n : Nat} (h : fileSizeFits kc text payload trailer = some n) :
    n = fixedHeader + 4 + text + payload + trailer ∧ n < 2 ^ 64 ∧ (kc.budgetBytes ≠ 0 → n ≤ kc.budgetBytes) := by
  obtain ⟨fileBytes, hf, h⟩ := Option.bind_eq_some_iff.mp h
  rw [kvCacheFileSizeBytes] at hf
  split_ifs at hf with hover
  obtain rfl := Option.some.inj hf
  have hmax : fixedHeader + 4 + text + payload + trailer < 2 ^ 64 := by
    rw [fixedHeader] at hover ⊢
    omega
  split_ifs at h with hb
  · obtain rfl := Option.some.inj h
    exact ⟨rfl, hmax, fun hne => absurd hb hne⟩
  · obtain ⟨required, hr, h⟩ := Option.bind_eq_some_iff.mp h
    split_ifs at h with hle
    obtain rfl := Option.some.inj h
    refine ⟨rfl, hmax, fun _ => ?_⟩
    rw [kvCacheBudgetRequired] at hr
    split_ifs at hr <;> obtain rfl := Option.some.inj hr <;> omega

/-- When a store keeps the budget: its hooks write no more than they announced,
   and where the key's file is kept and its trailer rewritten, what the new
   trailer adds to the tail it replaces fits the room left. -/
def StoreArgs.Fits (a : StoreArgs) (kc : KvStore) : Prop :=
  ∀ p, storePlan kc a = some p →
    (trailerWrite a.hooks p.text).data.length ≤ p.trailerEstBytes ∧
    ∀ data e, (existingFile kc a p).1 = true → kc.dir.lookup (keyPath p.text) = some data →
      readEntryFile (keyPath p.text) (sha1BytesHex p.text) data = some e → rewriteEstimate a.hooks p.text ≠ none →
        total kc.dir + p.trailerEstBytes ≤
          kc.budgetBytes + (data.length - (fixedHeader + 4 + e.textBytes + e.payloadBytes))

/-- The directory keeps within a budget that is set. -/
structure Bounded (kc : KvStore) : Prop where
  enabled : kc.enabled = true
  budget : kc.budgetBytes ≠ 0
  word : kc.budgetBytes < 2 ^ 64
  fits : total kc.dir ≤ kc.budgetBytes

/-- The same store over a directory that fits. -/
theorem Bounded.of_frame {kc kc' : KvStore} (h : Bounded kc) (hen : kc'.enabled = kc.enabled)
    (hb : kc'.budgetBytes = kc.budgetBytes) (ht : total kc'.dir ≤ kc.budgetBytes) : Bounded kc' :=
  ⟨hen.trans h.enabled, hb ▸ h.budget, hb ▸ h.word, hb ▸ ht⟩

theorem Bounded.withDir {kc : KvStore} (h : Bounded kc) {d : Dir} (ht : total d ≤ kc.budgetBytes) :
    Bounded { kc with dir := d } := ⟨h.enabled, h.budget, h.word, ht⟩

theorem rewriteTrailer_bounded {kc : KvStore} {path sha text data : Bytes} {e : Entry} {hooks : Option TrailerHooks} {now : Nat}
    (h : Bounded kc) (hd : kc.dir.lookup path = some data) (hs : scan ⟨path, data⟩ = some e)
    (he : readEntryFile path sha data = some e)
    (hroom : rewriteEstimate hooks text ≠ none → total kc.dir + (trailerWrite hooks text).data.length ≤
      kc.budgetBytes + (data.length - (fixedHeader + 4 + e.textBytes + e.payloadBytes))) :
    Bounded (rewriteTrailer kc path text hooks now) := by
  cases hr : rewriteEstimate hooks text with
  | none =>
    rw [rewriteTrailer, hr]
    exact h
  | some hk =>
    have hhooks : hooks = some hk := by
      simp only [rewriteEstimate, Option.bind_eq_bind, Option.bind_eq_some_iff, Option.ite_none_left_eq_some] at hr
      obtain ⟨hk', hhk, _, -, _, -, _, -, -, heq⟩ := hr
      rw [hhk]
      exact heq
    obtain ⟨-, -, -, -, hfit⟩ := readEntryFile_eq he
    rw [rewriteTrailer, hr, hd]
    apply h.withDir
    have hroom := hroom (by simp [hr])
    have hlen := length_rewriteTrailerData he hk text now
    have hins := total_insert_le kc.dir path (rewriteTrailerData hk data text now)
    have hold := total_listed hd hs
    have hfits := h.fits
    rw [hhooks] at hroom
    split_ifs at hlen <;> omega

theorem storeNew_bounded {kc : KvStore} {host : Host} {a : StoreArgs} {p : StorePlan} {path : Bytes} (h : Bounded kc)
    (hw : (trailerWrite a.hooks p.text).data.length ≤ p.trailerEstBytes) : Bounded (storeNew kc host a p path).1 := by
  rw [storeNew]
  cases a.session.payload with
  | none => exact h
  | some payload =>
    dsimp only
    cases hest : fileSizeFits kc p.text.length payload.length p.trailerEstBytes with
    | none => exact h
    | some est =>
      obtain ⟨hsize, -, hle⟩ := fileSizeFits_eq hest
      have hword := h.word
      have hfits := h.fits
      dsimp only
      generalize some _ = incoming
      have htot := evict_total _ host (host.clock 0) _ incoming h.enabled h.budget (hle h.budget)
        (by omega)
      obtain ⟨hen', hb', -⟩ := evict_frame kc host (host.clock 0) est incoming
      have hev : Bounded (evict kc host (host.clock 0) est incoming).1 := h.of_frame hen' hb' (by omega)
      split
      · exact hev
      · split
        · exact hev
        · apply hev.withDir
          have hins := total_insert_le (evict kc host (host.clock 0) est incoming).1.dir path
            (storeFile a p payload (trailerWrite a.hooks p.text).data (host.clock 1))
          have her := total_erase_le (evict kc host (host.clock 0) est incoming).1.dir path
          rw [length_storeFile] at hins
          omega

theorem store_bounded {kc : KvStore} {host : Host} {a : StoreArgs} (h : Bounded kc) (hfit : a.Fits kc) :
    Bounded (storeLivePrefixText kc host a).1 := by
  cases hp : storePlan kc a with
  | none =>
    rw [storeLivePrefixText, hp]
    exact h
  | some p =>
    obtain ⟨hw, hkeep⟩ := hfit p hp
    cases hc : (existingFile kc a p).1 with
    | true =>
      obtain ⟨data, e, hd, he, -, -, -⟩ := existingCompatible_true hc
      rw [store_kept hp hc]
      apply rewriteTrailer_bounded h hd ((scan_keyPath _ _).trans he) he
      intro hr
      have := hkeep data e hc hd he hr
      omega
    | false =>
      rw [store_new hp hc]
      apply storeNew_bounded _ hw
      rcases existingCompatible_false hc with hkc | hkc
      · rw [existingFile, hkc]
        exact h
      · rw [existingFile, hkc]
        exact h.withDir ((total_erase_le _ _).trans h.fits)

theorem refresh_bounded {kc : KvStore} (host : Host) (h : Bounded kc) : Bounded (refresh kc host) := by
  rw [refresh, if_pos h.enabled]
  exact ⟨h.enabled, h.budget, h.word, h.fits⟩

theorem touchFile_bounded {kc : KvStore} {path : Bytes} {hits now : Nat} (h : Bounded kc) {data : Bytes} {e : Entry}
    (hd : kc.dir.lookup path = some data) (hs : scan ⟨path, data⟩ = some e) : Bounded (touchFile kc path hits now) := by
  rw [touchFile, hd]
  dsimp only
  cases hh : readHeader data with
  | none => exact h
  | some hdr =>
    obtain ⟨hlen, -⟩ := readHeader_eq hh
    have hsame := length_rewrite hdr (show fixedHeader ≤ data.length by omega) hdr.extFlags hits now
    exact h.withDir ((total_rewrite_le hd hs hsame.le).trans h.fits)

theorem loadHit_bounded {kc : KvStore} {path : Bytes} {hdr : Header} {now : Nat} (h : Bounded kc) {data : Bytes} {e : Entry}
    (hd : kc.dir.lookup path = some data) (hs : scan ⟨path, data⟩ = some e) : Bounded (loadHit kc path hdr now).2 := by
  have hk : Bounded { kc with continuedLastStoreTokens := cInt hdr.tokens } := ⟨h.enabled, h.budget, h.word, h.fits⟩
  rw [loadHit]
  split_ifs
  · exact hk.withDir ((total_erase_le _ _).trans h.fits)
  · exact touchFile_bounded hk hd hs

theorem load_bounded {kc : KvStore} {host : Host} {en : KvEngine} {ctx : Int} {loadPayload : Bytes → Nat → Option (List Int)}
    {prompt : Option Bytes} (h : Bounded kc) : Bounded (tryLoadText kc host en ctx loadPayload prompt).1 := by
  unfold tryLoadText
  cases prompt with
  | none => exact h
  | some p =>
    have href := refresh_bounded host h
    simp only [findTextPrefix]
    generalize ((refresh kc host).entry.zipIdx.foldl _ none).map Prod.fst = idx
    split_ifs
    · exact h
    · exact h
    · cases hi : idx.bind ((refresh kc host).entry[·]?) with
      | none => exact href
      | some e =>
        obtain ⟨i, -, hi⟩ := Option.bind_eq_some_iff.mp hi
        -- the entry found is one of the scan, so its file counts already
        obtain ⟨data, hd, hs⟩ := refresh_listed h.enabled (List.mem_of_getElem? hi)
        have hdir : (refresh kc host).dir = kc.dir := by rw [refresh, if_pos h.enabled]
        have herase : total ((refresh kc host).dir.erase e.path) ≤ (refresh kc host).budgetBytes :=
          (total_erase_le _ _).trans href.fits
        have hd' : (refresh kc host).dir.lookup e.path = some data := by rw [hdir, hd]
        dsimp only
        split
        · exact href
        · split
          · exact href
          · split
            · exact href
            · split
              · exact href.withDir herase
              · exact loadHit_bounded href hd' hs

/-! ## Runs -/

/-- An operation on the store, with all it is given. -/
inductive Op where
  | openStore (budgetMb : Nat) (rejectDifferentQuant : Bool) (opt : Options)
  | store (a : StoreArgs)
  | load (en : KvEngine) (ctx : Int) (loadPayload : Bytes → Nat → Option (List Int)) (prompt : Option Bytes)

def Op.step (kc : KvStore) (host : Host) : Op → KvStore
  | .openStore budgetMb reject opt => Store.openStore kc.dir host budgetMb reject opt
  | .store a => (storeLivePrefixText kc host a).1
  | .load en ctx loadPayload prompt => (tryLoadText kc host en ctx loadPayload prompt).1

/-- `budget_bytes` of an opened store. -/
def openBudget (budgetMb : Nat) : Nat := (if budgetMb = 0 then defaultMb else budgetMb) * 1024 * 1024 % 2 ^ 64

/-- An operation for which the budget is a promise: a store that fits; and where
   the store is opened, a budget that is not 0 and a directory whose total a
   64-bit word can hold. -/
def Op.Fits (kc : KvStore) : Op → Prop
  | .openStore budgetMb _ _ => openBudget budgetMb ≠ 0 ∧ total kc.dir < 2 ^ 64
  | .store a => a.Fits kc
  | .load .. => True

def run (kc : KvStore) (ops : List (Host × Op)) : KvStore := ops.foldl (fun kc o => o.2.step kc o.1) kc

/-- Every operation of the run fits the state it starts in. -/
def RunFits (kc : KvStore) : List (Host × Op) → Prop
  | [] => True
  | o :: ops => o.2.Fits kc ∧ RunFits (o.2.step kc o.1) ops

section
variable (d : Dir) (host : Host) (budgetMb : Nat) (reject : Bool) (opt : Options)

theorem openStore_frame : (openStore d host budgetMb reject opt).enabled = true ∧
    (openStore d host budgetMb reject opt).budgetBytes = openBudget budgetMb ∧
    (openStore d host budgetMb reject opt).opt = opt ∧
    (openStore d host budgetMb reject opt).rejectDifferentQuant = reject := evict_frame _ _ _ _ _

theorem openStore_bounded (hb : openBudget budgetMb ≠ 0) (ht : total d < 2 ^ 64) :
    Bounded (openStore d host budgetMb reject opt) := by
  obtain ⟨hen, hbud, -⟩ := openStore_frame d host budgetMb reject opt
  refine ⟨hen, ?_, ?_, ?_⟩
  · rw [hbud]
    exact hb
  · rw [hbud]
    exact Nat.mod_lt _ (by decide)
  · rw [hbud]
    exact evict_total ⟨true, d, openBudget budgetMb, reject, opt, 0, []⟩ _ _ _ _ rfl hb (Nat.zero_le _) ht

end

theorem step_bounded {kc : KvStore} {host : Host} {o : Op} (h : Bounded kc) (hfit : o.Fits kc) : Bounded (o.step kc host) := by
  cases o with
  | openStore budgetMb reject opt => exact openStore_bounded _ _ _ _ _ hfit.1 hfit.2
  | store a => exact store_bounded h hfit
  | load en ctx loadPayload prompt => exact load_bounded h

theorem run_bounded (ops : List (Host × Op)) : ∀ kc, Bounded kc → RunFits kc ops → Bounded (run kc ops) := by
  induction ops with
  | nil =>
    intro kc h _
    exact h
  | cons o ops ih =>
    intro kc h hfit
    exact ih _ (step_bounded h hfit.1) hfit.2

theorem RunFits.take {ops : List (Host × Op)} (k : Nat) : ∀ {kc}, RunFits kc ops → RunFits kc (ops.take k) := by
  induction ops generalizing k with
  | nil =>
    intro kc h
    rw [List.take_nil]
    exact h
  | cons o ops ih =>
    intro kc h
    cases k with
    | zero => exact trivial
    | succ k => exact ⟨h.1, ih k h.2⟩

/-- Nothing is unlinked when everything fits. -/
theorem evict_of_fits (kc : KvStore) (host : Host) (now extra : Nat) (incoming : Option EvictionContext)
    (ht : total kc.dir < 2 ^ 64) (hfit : total kc.dir + extra ≤ kc.budgetBytes) :
    (evict kc host now extra incoming).1.dir = kc.dir := by
  rw [evict_dir]
  cases h : (evict kc host now extra incoming).2 with
  | nil => rfl
  | cons e q =>
    have := evict_needed ht (p := []) h
    simp only [List.map_nil, List.sum_nil] at this
    omega

/-- After every operation of a run that opens the store first, the files the scan
   accepts fit the budget; and no eviction unlinks a file once the rest fits. -/
theorem kvstore_budget (kc : KvStore) (host : Host) :
    (∀ (budgetMb : Nat) (reject : Bool) (opt : Options) (ops : List (Host × Op)) (k : Nat),
      RunFits kc ((host, .openStore budgetMb reject opt) :: ops) →
        total (run kc ((host, .openStore budgetMb reject opt) :: ops.take k)).dir ≤
          (run kc ((host, .openStore budgetMb reject opt) :: ops.take k)).budgetBytes) ∧
    ∀ (now extra : Nat) (incoming : Option EvictionContext) (p q : List Entry) (e : Entry),
      (evict kc host now extra incoming).1.dir =
          (evict kc host now extra incoming).2.foldl (fun d e => d.erase e.path) kc.dir ∧
      (total kc.dir < 2 ^ 64 → (evict kc host now extra incoming).2 = p ++ e :: q →
        kc.budgetBytes + (p.map Entry.fileSize).sum < total kc.dir + extra) := by
  constructor
  · intro budgetMb reject opt ops k h
    have hopen : Bounded (openStore kc.dir host budgetMb reject opt) := openStore_bounded _ _ _ _ _ h.1.1 h.1.2
    exact (run_bounded _ _ hopen (RunFits.take k h.2)).fits
  · intro now extra incoming p q e
    exact ⟨evict_dir .., fun ht h => evict_needed ht h⟩

/-! ## Sample runs -/

/-- A system that lists the directory as it is, at time 0. -/
def plainHost : Host := ⟨AList.entries, fun _ => List.Perm.refl _, fun _ => 0⟩

def sampleOptions : Options := ⟨1, 0, 0, 0, 0⟩

/-- Hooks that announce a trailer of a given size and write it. -/
def sampleHooks (trailer : Nat) : TrailerHooks where
  extFlag := 1
  serializedSize := some fun _ => some trailer
  write := some fun _ => ⟨List.replicate trailer 0, some trailer⟩

/-- A store of one token spelled `t`, with a payload and a trailer of the given sizes. -/
def sampleStore (payload trailer : Nat) : StoreArgs where
  engine := ⟨2, 0, fun _ => utf8 "t", fun _ => []⟩
  session := ⟨some [5], 4096, some (List.replicate payload 0)⟩
  tokens := some [5]
  storeLen := 1
  reason := some "cold"
  cacheTextOverride := none
  cacheTextExt := 0
  hooks := some (sampleHooks trailer)

def samplePlan (trailer : Nat) : StorePlan := ⟨[5], utf8 "t", false, trailer⟩

/-- A store over a directory, before it is opened. -/
def closedStore (d : Dir) : KvStore := ⟨false, d, 0, false, sampleOptions, 0, []⟩

theorem storePlan_sample {kc : KvStore} {payload trailer : Nat} (hen : kc.enabled = true) (hopt : kc.opt = sampleOptions) :
    storePlan kc (sampleStore payload trailer) = some (samplePlan trailer) := by
  have hlen : (utf8 "t").length < 2 ^ 32 := by decide +kernel
  simp only [storePlan, hen, hopt, sampleStore, sampleOptions, samplePlan]
  simp [storeText, renderTokensText, trailerSerializedSize, sampleHooks]
  simpa using hlen

/-- The file a store without a trailer leaves. -/
def sampleFile (payload : Nat) : Bytes := storeFile (sampleStore payload 0) (samplePlan 0) (List.replicate payload 0) [] 0

def sampleDir (payload : Nat) : Dir := AList.singleton (keyPath (utf8 "t")) (sampleFile payload)

theorem length_sampleFile (payload : Nat) : (sampleFile payload).length = 53 + payload := by
  have hlen : (utf8 "t").length = 1 := by decide +kernel
  rw [sampleFile, length_storeFile, List.length_replicate]
  simp [samplePlan, hlen, fixedHeader]

theorem lookup_sampleDir (payload : Nat) : (sampleDir payload).lookup (keyPath (utf8 "t")) = some (sampleFile payload) := by
  rw [sampleDir, ← AList.insert_empty]
  exact AList.lookup_insert _

section
variable {payload : Nat} (hp : payload < 2 ^ 32)
include hp

theorem readEntry_sampleFile : ∃ e, readEntryFile (keyPath (utf8 "t")) (sha1BytesHex (utf8 "t")) (sampleFile payload) = some e ∧
    e.textBytes = 1 ∧ e.payloadBytes = payload ∧ e.modelId = 0 ∧ e.ctxSize = 4096 ∧ e.tokens = 1 := by
  have hlen : (utf8 "t").length = 1 := by decide +kernel
  refine ⟨_, readEntry_storeFile _ _ _ ?_ ?_ ?_ ?_ _ _, hlen, List.length_replicate, rfl, rfl, rfl⟩
  · simp [sampleStore]
  · simp [samplePlan]
  · simp [samplePlan, hlen]
  · rw [List.length_replicate]
    simp only [samplePlan, hlen, fixedHeader]
    omega

theorem fileTextMatches_sampleFile : fileTextMatches (sampleFile payload) (sha1BytesHex (utf8 "t")) (utf8 "t") = true := by
  have hlen : (utf8 "t").length = 1 := by decide +kernel
  apply fileTextMatches_storeFile (p := samplePlan 0)
  · simp [sampleStore]
  · simp [samplePlan]
  · simp [samplePlan, hlen]
  · rw [List.length_replicate]
    omega

theorem total_sampleDir : total (sampleDir payload) = 53 + payload := by
  obtain ⟨e, he, -⟩ := readEntry_sampleFile hp
  have hs := (scan_keyPath (utf8 "t") (sampleFile payload)).trans he
  simp only [total, sampleDir, weight, AList.singleton_entries, List.map_cons, List.map_nil, List.sum_cons, List.sum_nil]
  rw [acceptedBytes_of_scan hs, length_sampleFile, Nat.add_zero]

/-- The file is kept when its key is stored again. -/
theorem existingFile_sample (kc : KvStore) (trailer : Nat) (hq : kc.rejectDifferentQuant = false)
    (hd : kc.dir = sampleDir payload) : (existingFile kc (sampleStore payload trailer) (samplePlan trailer)).1 = true := by
  obtain ⟨e, he, -, -, hm, hc, -⟩ := readEntry_sampleFile hp
  have hcompat : entryCompatible kc e 0 2 4096 = true := by
    simp [entryCompatible, hm, hc, hq, cU8, cU32]
  have hl : kc.dir.lookup (keyPath (utf8 "t")) = some (sampleFile payload) := by rw [hd, lookup_sampleDir]
  simp only [existingFile, existingCompatible, samplePlan, sampleStore, hl, he, hcompat, fileTextMatches_sampleFile hp,
    Bool.and_self, if_true]

/-- The kept file after its trailer is rewritten. -/
theorem total_keptStore {kc : KvStore} (host : Host) (trailer : Nat) (ht : trailer ≠ 0) (hen : kc.enabled = true)
    (hopt : kc.opt = sampleOptions) (hq : kc.rejectDifferentQuant = false) (hd : kc.dir = sampleDir payload) :
    total (storeLivePrefixText kc host (sampleStore payload trailer)).1.dir = 53 + payload + trailer ∧
      (storeLivePrefixText kc host (sampleStore payload trailer)).1.budgetBytes = kc.budgetBytes := by
  have hl : kc.dir.lookup (keyPath (utf8 "t")) = some (sampleFile payload) := by rw [hd, lookup_sampleDir]
  have htr : (trailerWrite (some (sampleHooks trailer)) (utf8 "t")).data.length = trailer := List.length_replicate
  have hest : rewriteEstimate (sampleStore payload trailer).hooks (utf8 "t") = some (sampleHooks trailer) := by
    simp [rewriteEstimate, sampleStore, sampleHooks, trailerSerializedSize, ht]
  obtain ⟨e, he, htext, hpay, -⟩ := readEntry_sampleFile hp
  obtain ⟨e', he', -⟩ := readEntry_rewriteTrailer he (sampleHooks trailer) (utf8 "t") (host.clock 0)
  have hs := (scan_keyPath (utf8 "t") _).trans he'
  have hsize := length_rewriteTrailerData he (sampleHooks trailer) (utf8 "t") (host.clock 0)
  rw [htext, hpay, htr, if_pos (by rw [fixedHeader]; omega)] at hsize
  have hrest : total ((sampleDir payload).erase (keyPath (utf8 "t"))) = 0 := by
    have h1 := weight_erase (f := acceptedBytes) (lookup_sampleDir payload)
    have h2 : acceptedBytes (keyPath (utf8 "t")) (sampleFile payload) = 53 + payload := by
      rw [acceptedBytes_of_scan ((scan_keyPath (utf8 "t") _).trans he), length_sampleFile]
    have h3 := total_sampleDir hp
    rw [total] at h3 ⊢
    omega
  rw [store_kept (storePlan_sample hen hopt) (existingFile_sample hp _ _ hq hd)]
  simp only [samplePlan, rewriteTrailer, hest, hl, and_true]
  rw [total, weight_insert, acceptedBytes_of_scan hs, hsize, hd, ← total, hrest, fixedHeader]
  omega

end

/-- A budget of 1 MiB, one file of 1000053 bytes, and a store of its key with a
   trailer of 100000 bytes. -/
theorem kept_file_overflows :
    ¬∀ (kc : KvStore) (host : Host) (budgetMb : Nat) (reject : Bool) (opt : Options) (ops : List (Host × Op)),
      openBudget budgetMb ≠ 0 → total kc.dir < 2 ^ 64 →
        total (run kc ((host, .openStore budgetMb reject opt) :: ops)).dir ≤
          (run kc ((host, .openStore budgetMb reject opt) :: ops)).budgetBytes := by
  intro h
  obtain ⟨n, hn⟩ : ∃ n, n = 1000000 := ⟨_, rfl⟩
  have hp : n < 2 ^ 32 := by omega
  have htot := total_sampleDir hp
  have hb : openBudget 1 = 1048576 := by decide
  have hrun := h (closedStore (sampleDir n)) plainHost 1 false sampleOptions [(plainHost, .store (sampleStore n 100000))]
    (by decide) (by rw [closedStore, htot]; omega)
  have hdir : (openStore (sampleDir n) plainHost 1 false sampleOptions).dir = sampleDir n := by
    apply evict_of_fits ⟨true, sampleDir n, openBudget 1, false, sampleOptions, 0, []⟩ _ _ _ _
    · rw [htot]
      omega
    · dsimp only
      rw [htot, hb]
      omega
  obtain ⟨hen, hbud, hopt, hrej⟩ := openStore_frame (sampleDir n) plainHost 1 false sampleOptions
  obtain ⟨hkept, hsame⟩ := total_keptStore hp plainHost 100000 (by decide) hen hopt hrej hdir
  simp only [run, List.foldl_cons, List.foldl_nil, Op.step, closedStore] at hrun
  rw [hkept, hsame, hbud, hb] at hrun
  omega

theorem sampleStore_fits {kc : KvStore} {payload trailer : Nat} (hp : payload < 2 ^ 32) (hen : kc.enabled = true)
    (hopt : kc.opt = sampleOptions) (hd : kc.dir = sampleDir payload) (hroom : 53 + payload + trailer ≤ kc.budgetBytes) :
    (sampleStore payload trailer).Fits kc := by
  intro p hplan
  rw [storePlan_sample hen hopt] at hplan
  obtain rfl := Option.some.inj hplan
  refine ⟨List.length_replicate.le, ?_⟩
  intro data e _ _ _ _
  rw [hd, total_sampleDir hp]
  exact Nat.le_add_right_of_le hroom

/-- A store of 5 bytes that is over its budget. -/
def overfullStore : KvStore := ⟨true, sampleDir 10, 5, false, sampleOptions, 0, []⟩

theorem kvstore_budget_sample :
    total (run (closedStore (sampleDir 10)) [(plainHost, .openStore 1 false sampleOptions),
        (plainHost, .store (sampleStore 10 7))]).dir ≤
      (run (closedStore (sampleDir 10)) [(plainHost, .openStore 1 false sampleOptions),
        (plainHost, .store (sampleStore 10 7))]).budgetBytes ∧
    ∃ e q, (evict overfullStore plainHost 0 0 none).2 = [] ++ e :: q ∧
      overfullStore.budgetBytes + (([] : List Entry).map Entry.fileSize).sum < total overfullStore.dir + 0 := by
  have hp : 10 < 2 ^ 32 := by decide
  have htot := total_sampleDir hp
  constructor
  · have hdir : (openStore (sampleDir 10) plainHost 1 false sampleOptions).dir = sampleDir 10 := by
      apply evict_of_fits ⟨true, sampleDir 10, openBudget 1, false, sampleOptions, 0, []⟩ _ _ _ _
      · rw [htot]
        decide
      · rw [htot]
        decide
    obtain ⟨hen, hbud, hopt, -⟩ := openStore_frame (sampleDir 10) plainHost 1 false sampleOptions
    apply (kvstore_budget (closedStore (sampleDir 10)) plainHost).1 1 false sampleOptions
      [(plainHost, .store (sampleStore 10 7))] 1
    refine ⟨⟨by decide, ?_⟩, sampleStore_fits hp hen hopt hdir ?_, trivial⟩
    · rw [closedStore, htot]
      decide
    · rw [Op.step, closedStore, hbud]
      decide
  · have hlt : total overfullStore.dir < 2 ^ 64 := by
      rw [overfullStore, htot]
      decide
    cases h : (evict overfullStore plainHost 0 0 none).2 with
    | nil =>
      have hfits := evict_total overfullStore plainHost 0 0 none rfl
        (by decide) (by decide) hlt
      rw [evict_dir, h, List.foldl_nil, overfullStore, htot] at hfits
      exact absurd hfits (by decide)
    | cons e q => exact ⟨e, q, rfl, ((kvstore_budget overfullStore plainHost).2 0 0 none [] q e).2 hlt h⟩

end Ds4.Store
