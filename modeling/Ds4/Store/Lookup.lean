import Ds4.Store.Budget

/- A reported store is found again: the file the store leaves under its key is an
   entry whose name is the hash of the text, so the scan of a prompt that starts
   with the text can only pass it over for one at least as long.

   The lookup has one check the store has not: the entry's token count must reach
   `min_tokens`. `StoreArgs.Findable` is that check, on the file kept or on the
   tokens stored. -/
namespace Ds4.Store
open Ds4 Bytes

/-! ## The scan for the longest prefix -/

section
variable {kc : KvStore} {prompt : Bytes} {m q c : Int}

/-- An entry the lookup would take if there were no other. -/
def Matches (kc : KvStore) (prompt : Bytes) (m q c : Int) (e : Entry) : Prop :=
  lookupAllows kc e prompt.length m q c = true ∧ sha1BytesHex (prompt.take e.textBytes) = e.sha

variable (kc prompt m q c) in
/-- One step keeps the best so far unless it finds a match at least as long. -/
theorem findStep_cases (best : Option (Nat × Entry)) (x : Entry × Nat) :
    (findStep kc prompt m q c best x = best ∧ ¬(Matches kc prompt m q c x.1 ∧ betterThan x.1 best = true)) ∨
      (findStep kc prompt m q c best x = some (x.2, x.1) ∧ Matches kc prompt m q c x.1 ∧ betterThan x.1 best = true) := by
  rw [findStep, Matches]
  split_ifs with h
  · simp only [Bool.and_eq_true, beq_iff_eq] at h
    exact Or.inr ⟨rfl, ⟨h.1.1, h.2⟩, h.1.2⟩
  · simp only [Bool.and_eq_true, beq_iff_eq] at h
    exact Or.inl ⟨rfl, fun hm => h ⟨⟨hm.1.1, hm.2⟩, hm.1.2⟩⟩

theorem betterThan_text {e b : Entry} {i : Nat} (h : betterThan e (some (i, b)) = true) : b.textBytes ≤ e.textBytes := by
  simp only [betterThan, Bool.not_eq_true', Bool.or_eq_false_iff, decide_eq_false_iff_not] at h
  exact Nat.not_lt.mp h.1

variable (kc prompt m q c) in
/-- A step never leaves a shorter entry. -/
theorem findStep_mono (i : Nat) (b : Entry) (x : Entry × Nat) :
    ∃ i' e, findStep kc prompt m q c (some (i, b)) x = some (i', e) ∧ b.textBytes ≤ e.textBytes := by
  rcases findStep_cases kc prompt m q c (some (i, b)) x with ⟨h, -⟩ | ⟨h, -, hb⟩
  · exact ⟨i, b, h, le_rfl⟩
  · exact ⟨x.2, x.1, h, betterThan_text hb⟩

/-- A step past a match leaves one at least as long. -/
theorem findStep_match (best : Option (Nat × Entry)) {x : Entry × Nat} (hm : Matches kc prompt m q c x.1) :
    ∃ i e, findStep kc prompt m q c best x = some (i, e) ∧ x.1.textBytes ≤ e.textBytes := by
  rcases findStep_cases kc prompt m q c best x with ⟨h, hnot⟩ | ⟨h, -, -⟩
  · have hworse : betterThan x.1 best = false := by
      simpa using fun hb => hnot ⟨hm, hb⟩
    cases best with
    | none => simp [betterThan] at hworse
    | some b =>
      obtain ⟨i, b⟩ := b
      simp only [betterThan, Bool.not_eq_false', Bool.or_eq_true, decide_eq_true_eq, Bool.and_eq_true, beq_iff_eq] at hworse
      exact ⟨i, b, h, by omega⟩
  · exact ⟨x.2, x.1, h, le_rfl⟩

variable (kc prompt m q c) in
theorem findFold_mono (l : List (Entry × Nat)) : ∀ (i : Nat) (b : Entry),
    ∃ i' e, l.foldl (findStep kc prompt m q c) (some (i, b)) = some (i', e) ∧ b.textBytes ≤ e.textBytes := by
  induction l with
  | nil =>
    intro i b
    exact ⟨i, b, rfl, le_rfl⟩
  | cons x l ih =>
    intro i b
    obtain ⟨i₁, e₁, h₁, hle₁⟩ := findStep_mono kc prompt m q c i b x
    obtain ⟨i₂, e₂, h₂, hle₂⟩ := ih i₁ e₁
    refine ⟨i₂, e₂, ?_, hle₁.trans hle₂⟩
    rw [List.foldl_cons, h₁, h₂]

/-- The result is at least as long as every match of the list. -/
theorem findFold_max (l : List (Entry × Nat)) {x : Entry × Nat} (hm : Matches kc prompt m q c x.1) : ∀ best, x ∈ l →
    ∃ i e, l.foldl (findStep kc prompt m q c) best = some (i, e) ∧ x.1.textBytes ≤ e.textBytes := by
  induction l with
  | nil =>
    intro best hx
    simp at hx
  | cons y l ih =>
    intro best hx
    rw [List.foldl_cons]
    rcases List.mem_cons.mp hx with rfl | hx
    · obtain ⟨i, e, h, hle⟩ := findStep_match best hm
      obtain ⟨i', e', h', hle'⟩ := findFold_mono kc prompt m q c l i e
      exact ⟨i', e', by rw [h, h'], hle.trans hle'⟩
    · exact ih _ hx

/-- The result is a match of the list. -/
theorem findFold_sound (l : List (Entry × Nat)) {i : Nat} {e : Entry} : ∀ best,
    l.foldl (findStep kc prompt m q c) best = some (i, e) →
      best = some (i, e) ∨ ((e, i) ∈ l ∧ Matches kc prompt m q c e) := by
  induction l with
  | nil =>
    intro best h
    exact Or.inl h
  | cons x l ih =>
    intro best h
    rw [List.foldl_cons] at h
    rcases ih _ h with h | ⟨hin, hm⟩
    · rcases findStep_cases kc prompt m q c best x with ⟨hs, -⟩ | ⟨hs, hm, -⟩
      · exact Or.inl (hs.symm.trans h)
      · obtain ⟨rfl, rfl⟩ := Prod.mk.inj (Option.some.inj (hs.symm.trans h))
        exact Or.inr ⟨List.mem_cons_self .., hm⟩
    · exact Or.inr ⟨List.mem_cons_of_mem _ hin, hm⟩

end

/-- The lookup of a prompt gives an entry with at least `n` bytes of text. -/
def Finds (kc : KvStore) (host : Host) (prompt : Bytes) (m q c : Int) (n : Nat) : Prop :=
  ∃ i e, (findTextPrefix kc host (some prompt) m q c).2 = some i ∧
    (findTextPrefix kc host (some prompt) m q c).1.entry[i]? = some e ∧ n ≤ e.textBytes

section
variable {kc : KvStore} {host : Host} {prompt : Bytes} {m q c : Int} {n : Nat} (hen : kc.enabled = true)
include hen

variable (host) in
theorem refresh_frame : (refresh kc host).opt = kc.opt ∧ (refresh kc host).rejectDifferentQuant = kc.rejectDifferentQuant := by
  rw [refresh, if_pos hen]
  exact ⟨rfl, rfl⟩

variable (host) in
theorem matches_refresh {e : Entry} : Matches (refresh kc host) prompt m q c e ↔ Matches kc prompt m q c e := by
  obtain ⟨hopt, hrej⟩ := refresh_frame host hen
  rw [Matches, Matches, lookupAllows, lookupAllows, hopt, hrej]

variable (host) in
theorem mem_refresh_of_listed {e : Entry} (hl : Listed kc.dir e) : e ∈ (refresh kc host).entry := by
  obtain ⟨data, hd, hs⟩ := hl
  have hfile := (host.perm kc.dir).mem_iff.mpr (AList.mem_lookup_iff.mp hd)
  rw [refresh, if_pos hen]
  exact List.mem_filterMap.mpr ⟨⟨e.path, data⟩, hfile, hs⟩

/-- A listed file that matches is found, or a longer one. -/
theorem finds_of_listed {e : Entry} (hl : Listed kc.dir e) (hm : Matches kc (cstr prompt) m q c e) :
    Finds kc host prompt m q c e.textBytes := by
  obtain ⟨j, hj, hget⟩ := List.getElem_of_mem (mem_refresh_of_listed host hen hl)
  have hzip : (e, j) ∈ (refresh kc host).entry.zipIdx := by
    rw [List.mk_mem_zipIdx_iff_getElem?, ← hget, List.getElem?_eq_getElem hj]
  obtain ⟨i, e', hfold, hle⟩ := findFold_max _ ((matches_refresh host hen).mpr hm) none hzip
  rcases findFold_sound _ none hfold with h | ⟨hin, -⟩
  · simp at h
  · refine ⟨i, e', ?_, List.mk_mem_zipIdx_iff_getElem?.mp hin, hle⟩
    simp only [findTextPrefix, hfold, Option.map_some]

/-- What is found is a listed file that matches. -/
theorem listed_of_finds (h : Finds kc host prompt m q c n) :
    ∃ e, Listed kc.dir e ∧ Matches kc (cstr prompt) m q c e ∧ n ≤ e.textBytes := by
  obtain ⟨i, e, hi, he, hn⟩ := h
  simp only [findTextPrefix, Option.map_eq_some_iff] at hi he
  obtain ⟨⟨i', e'⟩, hfold, rfl⟩ := hi
  rcases findFold_sound _ none hfold with h | ⟨hin, hm⟩
  · simp at h
  · have hsame : e' = e := Option.some.inj ((List.mk_mem_zipIdx_iff_getElem?.mp hin).symm.trans he)
    rw [hsame] at hm
    exact ⟨e, refresh_listed hen (List.mem_of_getElem? he), (matches_refresh host hen).mp hm, hn⟩

end

/-! ## What a store leaves under its key -/

theorem storePlan_eq {kc : KvStore} {a : StoreArgs} {p : StorePlan} (h : storePlan kc a = some p) :
    kc.enabled = true ∧ (a.engine.routedQuantBits = 2 ∨ a.engine.routedQuantBits = 4) ∧ p.text.length < 2 ^ 32 := by
  cases ht : a.tokens with
  | none => simp [storePlan, ht] at h
  | some tokens =>
    cases hl : a.session.tokens with
    | none => simp [storePlan, ht, hl] at h
    | some live =>
      simp only [storePlan, ht, hl, Option.ite_none_left_eq_some] at h
      obtain ⟨h1, h2, -, h4, h⟩ := h
      cases hz : trailerSerializedSize a.hooks (storeText a (tokens.take a.storeLen.toNat)).1 with
      | none => simp [hz] at h
      | some est =>
        rw [hz] at h
        obtain rfl := Option.some.inj h
        exact ⟨by simpa using (not_or.mp h1).1, by omega, Nat.not_le.mp h4⟩

/-- Whether the lookup's own check of the token count passes for what the store
   leaves: the kept file's count, or the count of the tokens stored. -/
def StoreArgs.Findable (a : StoreArgs) (kc : KvStore) (p : StorePlan) : Prop :=
  ((existingFile kc a p).1 = true → ∀ data e, kc.dir.lookup (keyPath p.text) = some data →
    readEntryFile (keyPath p.text) (sha1BytesHex p.text) data = some e → kc.opt.minTokens ≤ cInt e.tokens) ∧
  ((existingFile kc a p).1 = false →
    p.storeTokens.length % 2 ^ 32 ≠ 0 ∧ kc.opt.minTokens ≤ cInt (p.storeTokens.length % 2 ^ 32))

/-- The entry under the key serves the engine and the context the store was for. -/
def Serves (kc : KvStore) (a : StoreArgs) (p : StorePlan) (e : Entry) : Prop :=
  entryCompatible kc e a.engine.modelId a.engine.routedQuantBits a.session.ctx = true ∧ e.textBytes = p.text.length

section
variable {kc : KvStore} {host : Host} {a : StoreArgs} {p : StorePlan}

theorem rewriteTrailer_frame (kc : KvStore) (path text : Bytes) (hooks : Option TrailerHooks) (now : Nat) :
    (rewriteTrailer kc path text hooks now).enabled = kc.enabled ∧
      (rewriteTrailer kc path text hooks now).opt = kc.opt ∧
      (rewriteTrailer kc path text hooks now).rejectDifferentQuant = kc.rejectDifferentQuant := by
  rw [rewriteTrailer]
  split <;> exact ⟨rfl, rfl, rfl⟩

variable (host) in
/-- The kept file: its entry, with the same token count. -/
theorem kept_entry (hp : storePlan kc a = some p) (hc : (existingFile kc a p).1 = true) :
    ∃ data e data' e', kc.dir.lookup (keyPath p.text) = some data ∧
      readEntryFile (keyPath p.text) (sha1BytesHex p.text) data = some e ∧
      (storeLivePrefixText kc host a).1.dir.lookup (keyPath p.text) = some data' ∧
      readEntryFile (keyPath p.text) (sha1BytesHex p.text) data' = some e' ∧
      e'.tokens = e.tokens ∧ Serves kc a p e' := by
  obtain ⟨data, e, hd, he, hcompat, hmatch, -⟩ := existingCompatible_true hc
  have htext : e.textBytes = p.text.length := by
    rw [fileTextMatches, (readEntryFile_eq he).1] at hmatch
    simp only [Bool.and_eq_true, beq_iff_eq] at hmatch
    exact hmatch.2.1.1.1
  rw [store_kept hp hc, rewriteTrailer]
  cases hr : rewriteEstimate a.hooks p.text with
  | none => exact ⟨data, e, data, e, hd, he, hd, he, rfl, hcompat, htext⟩
  | some hk =>
    obtain ⟨e', he', hq, hm, ht, hx, hb⟩ := readEntry_rewriteTrailer he hk p.text (host.clock 0)
    refine ⟨data, e, _, e', hd, he, ?_, he', ht, ?_, hb.trans htext⟩
    · rw [hd]
      exact AList.lookup_insert _
    · rw [entryCompatible, hq, hm, hx]
      exact hcompat

/-- A store that reports success without a kept file has written one. -/
theorem storeNew_true {kc' : KvStore} {path : Bytes} (h : (storeNew kc' host a p path).2 = true) :
    ∃ payload trailer est incoming, fixedHeader + 4 + p.text.length + payload.length < 2 ^ 64 ∧
      (storeNew kc' host a p path).1 = { (evict kc' host (host.clock 0) est incoming).1 with
        dir := (evict kc' host (host.clock 0) est incoming).1.dir.insert path (storeFile a p payload trailer (host.clock 1)) } := by
  rw [storeNew] at h ⊢
  cases hpay : a.session.payload with
  | none => simp [hpay] at h
  | some payload =>
    rw [hpay] at h
    dsimp only at h ⊢
    cases hest : fileSizeFits kc' p.text.length payload.length p.trailerEstBytes with
    | none => simp [hest] at h
    | some est =>
      obtain ⟨hsize, hmax, -⟩ := fileSizeFits_eq hest
      rw [hest] at h
      dsimp only at h ⊢
      split at h
      · simp at h
      · split at h
        · simp at h
        · exact ⟨payload, _, est, _, by omega, rfl⟩

theorem mem_foldl_erase {name : Bytes} (gone : List Entry) : ∀ {d : Dir},
    name ∈ gone.foldl (fun d e => d.erase e.path) d → name ∈ d := by
  induction gone with
  | nil =>
    intro d h
    exact h
  | cons e gone ih =>
    intro d h
    exact (AList.mem_erase.mp (ih h)).2

/-- The state a store leaves, where it reports success. -/
structure Stored (kc kc' : KvStore) (a : StoreArgs) (p : StorePlan) : Prop where
  enabled : kc'.enabled = true
  opt : kc'.opt = kc.opt
  reject : kc'.rejectDifferentQuant = kc.rejectDifferentQuant
  names : ∀ name, name ∈ kc'.dir → name = keyPath p.text ∨ name ∈ kc.dir
  found : a.Findable kc p → ∃ data e, kc'.dir.lookup (keyPath p.text) = some data ∧
    readEntryFile (keyPath p.text) (sha1BytesHex p.text) data = some e ∧ Serves kc a p e ∧ kc.opt.minTokens ≤ cInt e.tokens
  lost : ¬a.Findable kc p → ∀ data e, kc'.dir.lookup (keyPath p.text) = some data →
    readEntryFile (keyPath p.text) (sha1BytesHex p.text) data = some e → ¬kc.opt.minTokens ≤ cInt e.tokens

theorem stored_kept (hp : storePlan kc a = some p) (hc : (existingFile kc a p).1 = true) :
    Stored kc (storeLivePrefixText kc host a).1 a p := by
  obtain ⟨data, e, data', e', hd, he, hd', he', htok, hserves⟩ := kept_entry host hp hc
  have hkc : (storeLivePrefixText kc host a).1 = rewriteTrailer kc (keyPath p.text) p.text a.hooks (host.clock 0) := by
    rw [store_kept hp hc]
  obtain ⟨hen, hopt, hrej⟩ := rewriteTrailer_frame kc (keyPath p.text) p.text a.hooks (host.clock 0)
  constructor
  · rw [hkc, hen]
    exact (storePlan_eq hp).1
  · rw [hkc, hopt]
  · rw [hkc, hrej]
  · intro name hname
    rw [hkc, rewriteTrailer] at hname
    split at hname
    · exact (AList.mem_insert _).mp hname
    · exact Or.inr hname
  · intro hf
    refine ⟨data', e', hd', he', hserves, ?_⟩
    rw [htok]
    exact hf.1 hc data e hd he
  · intro hf data₁ e₁ hd₁ he₁ hmin
    obtain rfl := Option.some.inj (hd'.symm.trans hd₁)
    obtain rfl := Option.some.inj (he'.symm.trans he₁)
    apply hf
    refine ⟨fun _ => ?_, fun hnew => absurd hc (by simp [hnew])⟩
    intro data₂ e₂ hd₂ he₂
    obtain rfl := Option.some.inj (hd.symm.trans hd₂)
    obtain rfl := Option.some.inj (he.symm.trans he₂)
    rw [← htok]
    exact hmin

/-- The state before a new file is written: the store as it was, or less an incompatible file. -/
theorem existingFile_frame (hc : (existingFile kc a p).1 = false) :
    (existingFile kc a p).2.enabled = kc.enabled ∧ (existingFile kc a p).2.opt = kc.opt ∧
      (existingFile kc a p).2.rejectDifferentQuant = kc.rejectDifferentQuant ∧
      ∀ name, name ∈ (existingFile kc a p).2.dir → name ∈ kc.dir := by
  rcases existingCompatible_false hc with h | h
  · rw [existingFile, h]
    exact ⟨rfl, rfl, rfl, fun _ => id⟩
  · rw [existingFile, h]
    exact ⟨rfl, rfl, rfl, fun _ hn => (AList.mem_erase.mp hn).2⟩

theorem stored_new (hp : storePlan kc a = some p) (hc : (existingFile kc a p).1 = false)
    (hret : (storeLivePrefixText kc host a).2 = true) : Stored kc (storeLivePrefixText kc host a).1 a p := by
  obtain ⟨hen, hq, htext⟩ := storePlan_eq hp
  obtain ⟨hen₁, hopt₁, hrej₁, hnames₁⟩ := existingFile_frame hc
  rw [store_new hp hc] at hret ⊢
  obtain ⟨payload, trailer, est, incoming, hpay, hkc⟩ := storeNew_true hret
  obtain ⟨hen₂, -, hopt₂, hrej₂⟩ := evict_frame (existingFile kc a p).2 host (host.clock 0) est incoming
  have hlookup : (storeNew (existingFile kc a p).2 host a p (keyPath p.text)).1.dir.lookup (keyPath p.text) =
      some (storeFile a p payload trailer (host.clock 1)) := by
    rw [hkc]
    exact AList.lookup_insert _
  have hread (h : p.storeTokens.length % 2 ^ 32 ≠ 0) := readEntry_storeFile a trailer (host.clock 1)
    hq h htext hpay (keyPath p.text) (sha1BytesHex p.text)
  constructor
  · rw [hkc]
    exact hen₂.trans (hen₁.trans hen)
  · rw [hkc]
    exact hopt₂.trans hopt₁
  · rw [hkc]
    exact hrej₂.trans hrej₁
  · intro name hname
    rw [hkc] at hname
    rcases (AList.mem_insert _).mp hname with hname | hname
    · exact Or.inl hname
    · rw [evict_dir] at hname
      exact Or.inr (hnames₁ name (mem_foldl_erase _ hname))
  · intro hf
    obtain ⟨htok, hmin⟩ := hf.2 hc
    refine ⟨_, _, hlookup, hread htok, ⟨?_, rfl⟩, hmin⟩
    simp [entryCompatible, storedEntry]
  · intro hf data e hd he hmin
    obtain rfl := Option.some.inj (hlookup.symm.trans hd)
    by_cases htok : p.storeTokens.length % 2 ^ 32 = 0
    · have hnone := readHeader_storeFile_none a payload trailer (host.clock 1) htok
      simp [(readEntryFile_eq he).1] at hnone
    · obtain rfl := Option.some.inj ((hread htok).symm.trans he)
      exact hf ⟨fun hkept => absurd hc (by simp [hkept]), fun _ => ⟨htok, hmin⟩⟩

variable (host) in
theorem stored_of_true (hp : storePlan kc a = some p) (hret : (storeLivePrefixText kc host a).2 = true) :
    Stored kc (storeLivePrefixText kc host a).1 a p := by
  cases hc : (existingFile kc a p).1 with
  | true => exact stored_kept hp hc
  | false => exact stored_new hp hc hret

/-- The store's key has no second spelling in the directory, in other letter case. -/
def OneSpelling (d : Dir) (text : Bytes) : Prop :=
  ∀ name, name ∈ d → shaHexName name = some (sha1BytesHex text) → name = keyPath text

section
variable {host' : Host} (hst : Stored kc (storeLivePrefixText kc host a).1 a p)
include hst

theorem finds_of_findable (hf : a.Findable kc p) {prompt : Bytes} (hpre : p.text <+: cstr prompt) :
    Finds (storeLivePrefixText kc host a).1 host' prompt a.engine.modelId a.engine.routedQuantBits a.session.ctx
      p.text.length := by
  obtain ⟨data, e, hd, he, hserves, hmin⟩ := hst.found hf
  obtain ⟨-, hsha, hpath, -⟩ := readEntryFile_eq he
  have hlisted : Listed (storeLivePrefixText kc host a).1.dir e := by
    refine ⟨data, ?_, ?_⟩
    · rw [hpath]
      exact hd
    · rw [hpath]
      exact (scan_keyPath _ _).trans he
  rw [← hserves.2]
  apply finds_of_listed hst.enabled hlisted
  have hcompat := hserves.1
  simp only [entryCompatible, Bool.and_eq_true] at hcompat
  constructor
  · simp only [lookupAllows, hst.opt, hst.reject, Bool.and_eq_true, decide_eq_true_eq]
    refine ⟨⟨⟨⟨?_, hmin⟩, hcompat.1.1⟩, by simpa using hcompat.2⟩, hcompat.1.2⟩
    rw [hserves.2]
    exact hpre.length_le
  · rw [hserves.2, hsha, ← List.prefix_iff_eq_take.mp hpre]

/-- The prompt that is the key text itself can only find the key's own file. -/
theorem findable_of_finds (hnul : (0 : UInt8) ∉ p.text) (hone : OneSpelling kc.dir p.text)
    (hfinds : Finds (storeLivePrefixText kc host a).1 host' p.text a.engine.modelId a.engine.routedQuantBits a.session.ctx
      p.text.length) : a.Findable kc p := by
  by_contra hf
  obtain ⟨e, ⟨data, hd, hs⟩, ⟨hallows, hsha⟩, hlen⟩ := listed_of_finds hst.enabled hfinds
  rw [cstr_of_no_nul hnul] at hallows hsha
  rw [List.take_of_length_le hlen] at hsha
  simp only [lookupAllows, hst.opt, Bool.and_eq_true, decide_eq_true_eq] at hallows
  obtain ⟨hname, he, -, -⟩ := scan_eq hs
  have hkey : e.path = keyPath p.text := by
    rcases hst.names e.path (AList.lookup_isSome.mp (by rw [hd]; rfl)) with h | h
    · exact h
    · exact hone e.path h (by rw [hname, hsha])
  rw [hkey] at hd he
  rw [← hsha] at he
  exact hst.lost hf data e hd he hallows.1.1.1.2

end

/-- After a store that reports success, every prompt that starts with the key text
   finds an entry at least as long, if the token count of what was stored passes
   the lookup's check; and only then, if the key has one spelling. -/
theorem store_findable (kc : KvStore) (host host' : Host) (a : StoreArgs) (p : StorePlan) (hp : storePlan kc a = some p)
    (hnul : (0 : UInt8) ∉ p.text) (hret : (storeLivePrefixText kc host a).2 = true) :
    (a.Findable kc p → ∀ prompt, p.text <+: cstr prompt → Finds (storeLivePrefixText kc host a).1 host' prompt
      a.engine.modelId a.engine.routedQuantBits a.session.ctx p.text.length) ∧
    (OneSpelling kc.dir p.text → (∀ prompt, p.text <+: cstr prompt → Finds (storeLivePrefixText kc host a).1 host' prompt
      a.engine.modelId a.engine.routedQuantBits a.session.ctx p.text.length) → a.Findable kc p) := by
  have hst := stored_of_true host hp hret
  constructor
  · intro hf prompt hpre
    exact finds_of_findable hst hf hpre
  · intro hone hall
    exact findable_of_finds hst hnul hone (hall p.text (by rw [cstr_of_no_nul hnul]))

end

/-! ## Sample stores -/

/-- An open store over an empty directory. -/
def emptyStore : KvStore := ⟨true, ∅, 1048576, false, sampleOptions, 0, []⟩

theorem sampleText_no_nul : (0 : UInt8) ∉ utf8 "t" := by decide +kernel

theorem existingFile_empty : existingFile emptyStore (sampleStore 10 0) (samplePlan 0) = (false, emptyStore) := rfl

theorem emptyStore_true : (storeLivePrefixText emptyStore plainHost (sampleStore 10 0)).2 = true := by
  have hlen : (utf8 "t").length = 1 := by decide +kernel
  have hfits : ∀ kc : KvStore, kc.budgetBytes = 1048576 → fileSizeFits kc 1 10 0 = some 63 := by
    intro kc h
    rw [fileSizeFits, h]
    decide
  rw [store_new (storePlan_sample rfl rfl) (by rw [existingFile_empty]), existingFile_empty, storeNew]
  simp only [sampleStore, samplePlan, List.length_replicate, hlen, hfits emptyStore rfl]
  have hev (incoming : Option EvictionContext) := (evict_frame emptyStore plainHost (plainHost.clock 0) 63 incoming).2.1
  simp [trailerWrite, sampleHooks, hfits _ (hev _)]

theorem store_findable_sample :
    Finds (storeLivePrefixText emptyStore plainHost (sampleStore 10 0)).1 plainHost (utf8 "t") 0 2 4096 (utf8 "t").length := by
  refine (store_findable emptyStore plainHost plainHost (sampleStore 10 0) (samplePlan 0) (storePlan_sample rfl rfl)
    sampleText_no_nul emptyStore_true).1 ⟨?_, ?_⟩ (utf8 "t") ?_
  · intro h
    rw [existingFile_empty] at h
    exact absurd h (by decide)
  · intro _
    decide
  · -- the asked text is the stored one
    rw [cstr_of_no_nul sampleText_no_nul]
    exact List.prefix_rfl

/-- A store of two tokens under the text of the sample file. -/
def longerStore : StoreArgs :=
  { sampleStore 10 0 with
    tokens := some [5, 6], session := ⟨some [5, 6], 4096, some []⟩, storeLen := 2, cacheTextOverride := some (utf8 "t") }

def longerPlan : StorePlan := ⟨[5, 6], utf8 "t", true, 0⟩

/-- The store that holds the sample file's one token, with a minimum of two now. -/
def raisedStore : KvStore := ⟨true, sampleDir 10, 1048576, false, { sampleOptions with minTokens := 2 }, 0, []⟩

/-- The kept file of one token is below the minimum the lookup asks for. -/
theorem short_file_lost :
    ¬∀ (kc : KvStore) (host host' : Host) (a : StoreArgs) (p : StorePlan), storePlan kc a = some p → (0 : UInt8) ∉ p.text →
      (storeLivePrefixText kc host a).2 = true → ∀ prompt, p.text <+: cstr prompt →
        Finds (storeLivePrefixText kc host a).1 host' prompt a.engine.modelId a.engine.routedQuantBits a.session.ctx
          p.text.length := by
  intro h
  have hp : 10 < 2 ^ 32 := by decide
  have hcstr : cstr (utf8 "t") = utf8 "t" := cstr_of_no_nul sampleText_no_nul
  have hlen : (utf8 "t").length = 1 := by decide +kernel
  have hplan : storePlan raisedStore longerStore = some longerPlan := by
    have hne : utf8 "t" ≠ [] := List.ne_nil_of_length_pos (by rw [hlen]; decide)
    simp [storePlan, raisedStore, longerStore, longerPlan, sampleStore, storeText, hcstr, hne, hlen, trailerSerializedSize,
      sampleHooks]
  have hkept : (existingFile raisedStore longerStore longerPlan).1 = true :=
    existingFile_sample hp raisedStore 0 rfl rfl
  have hret : (storeLivePrefixText raisedStore plainHost longerStore).2 = true := by rw [store_kept hplan hkept]
  have hnul : (0 : UInt8) ∉ longerPlan.text := sampleText_no_nul
  have hpre : longerPlan.text <+: cstr longerPlan.text := by rw [cstr_of_no_nul hnul]
  have hfinds := h raisedStore plainHost plainHost longerStore longerPlan hplan hnul hret longerPlan.text hpre
  have hone : OneSpelling raisedStore.dir longerPlan.text := by
    intro name hname _
    have hkeys : raisedStore.dir.keys = [keyPath (utf8 "t")] := AList.keys_singleton _ _
    rw [AList.mem_keys, hkeys] at hname
    exact List.mem_singleton.mp hname
  have hst := stored_of_true plainHost hplan hret
  have hf := findable_of_finds hst hnul hone hfinds
  obtain ⟨e, he, -, -, -, -, htok⟩ := readEntry_sampleFile hp
  have hd : raisedStore.dir.lookup (keyPath longerPlan.text) = some (sampleFile 10) := lookup_sampleDir 10
  have hmin := hf.1 hkept _ e hd he
  rw [htok] at hmin
  exact absurd hmin (by decide)

end Ds4.Store
