import Mathlib.Data.List.MinMax
import Mathlib.Data.Prod.Lex
import Ds4.Store.Lookup

/- The prefix lookup of ds4_kvstore.c gives the best file of the directory. The
   scan compares an entry with the best so far before it computes the hash, so
   that what is best so far is always a verified entry: the scan is `argmax` over
   the verified ones, by text length and then by token count (`findFold_argmax`).

   PROVED here: the lookup fails exactly when no file is eligible, what it finds
   is an eligible file that is maximal among them, and every order of the
   directory gives the same text length and token count (`find_optimal`). -/
namespace Ds4.Store
open Ds4 Bytes

/-- What the lookup compares entries by. -/
def prefixKey (e : Entry) : Nat ×ₗ Nat := toLex (e.textBytes, e.tokens)

section
variable {kc : KvStore} {prompt : Bytes} {m q c : Int}

instance (e : Entry) : Decidable (Matches kc prompt m q c e) := inferInstanceAs (Decidable (_ ∧ _))

theorem betterThan_iff {e b : Entry} {i : Nat} : betterThan e (some (i, b)) = true ↔ prefixKey b < prefixKey e := by
  rw [prefixKey, prefixKey, Prod.Lex.toLex_lt_toLex]
  simp only [betterThan, Bool.not_eq_true', Bool.or_eq_false_iff, Bool.and_eq_false_iff, decide_eq_false_iff_not, beq_eq_false_iff_ne]
  omega

/-- A step is one of `argmax` if the entry is verified, and otherwise none. -/
theorem findStep_argAux (best : Option (Entry × Nat)) (x : Entry × Nat) :
    findStep kc prompt m q c (best.map Prod.swap) x =
      (if Matches kc prompt m q c x.1 then List.argAux (fun b c => prefixKey c.1 < prefixKey b.1) best x else best).map Prod.swap := by
  rcases findStep_cases kc prompt m q c (best.map Prod.swap) x with ⟨h, hnot⟩ | ⟨h, hm, hb⟩
  · rw [h]
    split
    · next hm =>
      cases best with
      | none => exact absurd ⟨hm, rfl⟩ hnot
      | some b =>
        have hworse : ¬prefixKey b.1 < prefixKey x.1 := fun hlt => hnot ⟨hm, betterThan_iff.mpr hlt⟩
        simp only [List.argAux, if_neg hworse]
    · rfl
  · rw [h, if_pos hm]
    cases best with
    | none => rfl
    | some b =>
      have hlt : prefixKey b.1 < prefixKey x.1 := betterThan_iff.mp hb
      simp only [List.argAux, if_pos hlt]
      rfl

/-- The scan is `argmax` over the verified entries. -/
theorem findFold_argmax (l : List (Entry × Nat)) :
    l.foldl (findStep kc prompt m q c) none =
      ((l.filter fun x => Matches kc prompt m q c x.1).argmax fun x => prefixKey x.1).map Prod.swap := by
  rw [List.argmax, List.foldl_filter]
  simp only [decide_eq_true_eq]
  exact @List.foldl_hom _ _ _ (Option.map Prod.swap) _ _ l none findStep_argAux

end

/-! ## The best eligible file -/

/-- A listed file the prompt may be served from, `count` being how its token count is read. -/
structure Eligible (kc : KvStore) (count : Nat → Int) (prompt : Bytes) (m q c : Int) (e : Entry) : Prop where
  listed : Listed kc.dir e
  text : e.textBytes ≤ prompt.length
  tokens : kc.opt.minTokens ≤ count e.tokens
  model : e.modelId = cU8 m
  context : e.ctxSize ≤ cU32 c
  quant : kc.rejectDifferentQuant = true → e.quantBits = cU8 q
  name : e.sha = sha1BytesHex (prompt.take e.textBytes)

/-- The entry at the index the lookup returns. -/
def foundEntry (kc : KvStore) (host : Host) (prompt : Bytes) (m q c : Int) : Option Entry :=
  (findTextPrefix kc host (some prompt) m q c).2.bind ((findTextPrefix kc host (some prompt) m q c).1.entry[·]?)

/-- The lookup under one order of the directory. -/
structure FindsBest (kc : KvStore) (host : Host) (count : Nat → Int) (prompt : Bytes) (m q c : Int) : Prop where
  none_iff : (findTextPrefix kc host (some prompt) m q c).2 = none ↔ ∀ e, ¬Eligible kc count prompt m q c e
  best : ∀ i, (findTextPrefix kc host (some prompt) m q c).2 = some i → ∃ e, foundEntry kc host prompt m q c = some e ∧
    Eligible kc count prompt m q c e ∧ ∀ e', Eligible kc count prompt m q c e' → prefixKey e' ≤ prefixKey e
  order : ∀ host', (foundEntry kc host' prompt m q c).map prefixKey = (foundEntry kc host prompt m q c).map prefixKey

section
variable {kc : KvStore} {prompt : Bytes} {m q c : Int} (hen : kc.enabled = true)
include hen

variable (host : Host) in
theorem eligible_iff (e : Entry) : Eligible kc cInt prompt m q c e ↔
    e ∈ (refresh kc host).entry ∧ Matches (refresh kc host) prompt m q c e := by
  rw [matches_refresh host hen, Matches, lookupAllows]
  simp only [Bool.and_eq_true, decide_eq_true_eq, beq_iff_eq, Bool.not_eq_true', Bool.and_eq_false_iff, bne_eq_false_iff_eq]
  constructor
  · rintro ⟨hl, ht, hk, hm, hc, hq, hn⟩
    refine ⟨mem_refresh_of_listed host hen hl, ⟨⟨⟨⟨ht, hk⟩, hm⟩, hc⟩, ?_⟩, hn.symm⟩
    cases hr : kc.rejectDifferentQuant with
    | false => exact Or.inl rfl
    | true => exact Or.inr (hq hr)
  · rintro ⟨hin, ⟨⟨⟨⟨ht, hk⟩, hm⟩, hc⟩, hq⟩, hn⟩
    refine ⟨refresh_listed hen hin, ht, hk, hm, hc, fun hr => hq.resolve_left (by simp [hr]), hn.symm⟩

variable (hnul : (0 : UInt8) ∉ prompt)
include hnul

variable (host : Host) in
/-- The lookup fails without an eligible file, or finds one that no eligible file exceeds. -/
theorem find_cases :
    ((findTextPrefix kc host (some prompt) m q c).2 = none ∧ ∀ e, ¬Eligible kc cInt prompt m q c e) ∨
      ∃ i e, (findTextPrefix kc host (some prompt) m q c).2 = some i ∧ foundEntry kc host prompt m q c = some e ∧
        Eligible kc cInt prompt m q c e ∧ ∀ e', Eligible kc cInt prompt m q c e' → prefixKey e' ≤ prefixKey e := by
  have hscan : (refresh kc host).entry.zipIdx.foldl (findStep (refresh kc host) prompt m q c) none = _ := findFold_argmax _
  have hzip (e : Entry) (h : Eligible kc cInt prompt m q c e) :
      ∃ j, (e, j) ∈ (refresh kc host).entry.zipIdx.filter fun x => Matches (refresh kc host) prompt m q c x.1 := by
    obtain ⟨hin, hm⟩ := (eligible_iff hen host e).mp h
    obtain ⟨j, hj, hget⟩ := List.getElem_of_mem hin
    refine ⟨j, List.mem_filter.mpr ⟨?_, decide_eq_true hm⟩⟩
    rw [List.mk_mem_zipIdx_iff_getElem?, ← hget, List.getElem?_eq_getElem hj]
  cases hmax : ((refresh kc host).entry.zipIdx.filter fun x => Matches (refresh kc host) prompt m q c x.1).argmax
      fun x => prefixKey x.1 with
  | none =>
    left
    rw [hmax] at hscan
    refine ⟨?_, fun e h => ?_⟩
    · simp only [findTextPrefix, cstr_of_no_nul hnul, hscan]
      rfl
    · obtain ⟨j, hj⟩ := hzip e h
      rw [List.argmax_eq_none.mp hmax] at hj
      exact List.not_mem_nil hj
  | some x =>
    right
    obtain ⟨e, j⟩ := x
    rw [hmax] at hscan
    obtain ⟨hin, hm⟩ := List.mem_filter.mp (List.argmax_mem hmax)
    have hget := List.mk_mem_zipIdx_iff_getElem?.mp hin
    have hidx : (findTextPrefix kc host (some prompt) m q c).2 = some j := by
      simp only [findTextPrefix, cstr_of_no_nul hnul, hscan]
      rfl
    refine ⟨j, e, hidx, ?_, (eligible_iff hen host e).mpr ⟨List.mem_of_getElem? hget, of_decide_eq_true hm⟩, ?_⟩
    · rw [foundEntry, hidx]
      exact hget
    · intro e' h
      obtain ⟨j', hj'⟩ := hzip e' h
      exact List.le_of_mem_argmax (f := fun x : Entry × Nat => prefixKey x.1) hj' hmax

end

/-- The lookup gives an eligible file of the longest text, and among these of the most
    tokens, whatever the order of the directory; it gives none only if there is none. -/
theorem find_optimal (kc : KvStore) (host : Host) (prompt : Bytes) (m q c : Int) (hen : kc.enabled = true)
    (hnul : (0 : UInt8) ∉ prompt) : FindsBest kc host cInt prompt m q c := by
  constructor
  · rcases find_cases hen hnul host with ⟨hi, hno⟩ | ⟨i, e, hi, -, he, -⟩
    · exact ⟨fun _ => hno, fun _ => hi⟩
    · rw [hi]
      exact ⟨fun h => absurd h (Option.some_ne_none i), fun hno => absurd he (hno e)⟩
  · intro i hi
    rcases find_cases hen hnul host with ⟨hnone, -⟩ | ⟨j, e, -, hfound, he, hmax⟩
    · rw [hnone] at hi
      cases hi
    · exact ⟨e, hfound, he, hmax⟩
  · intro host'
    rcases find_cases hen hnul host with ⟨hi, hno⟩ | ⟨i, e, -, hfound, he, hmax⟩ <;>
      rcases find_cases hen hnul host' with ⟨hi', hno'⟩ | ⟨i', e', -, hfound', he', hmax'⟩
    · rw [foundEntry, foundEntry, hi, hi']
      rfl
    · exact absurd he' (hno e')
    · exact absurd he (hno' e)
    · rw [hfound, hfound', Option.map_some, Option.map_some, le_antisymm (hmax e' he') (hmax' e he)]

theorem find_optimal_sample :
    FindsBest ⟨true, sampleDir 10, 1048576, false, sampleOptions, 0, []⟩ plainHost cInt (utf8 "t") 0 2 4096 :=
  find_optimal _ _ _ _ _ _ rfl sampleText_no_nul

/-! ## A token count out of the range of `int` -/

/-- A file of the text `t` whose header counts 2^31 tokens. -/
def hugeFile : Bytes := fillHeader 0 2 0 0 2147483648 0 4096 0 0 0 ++ (lePut 4 1 ++ utf8 "t")

def hugeEntry : Entry :=
  { quantBits := 2, modelId := 0, reason := 0, tokens := 2147483648, hits := 0, ctxSize := 4096, extFlags := 0, createdAt := 0
    lastUsed := 0, payloadBytes := 0, textBytes := 1, sha := sha1BytesHex (utf8 "t"), path := keyPath (utf8 "t"), fileSize := 53 }

def hugeStore : KvStore := ⟨true, AList.singleton (keyPath (utf8 "t")) hugeFile, 1048576, false, sampleOptions, 0, []⟩

theorem length_hugeFile : hugeFile.length = 53 := by
  have hlen : (utf8 "t").length = 1 := by decide
  rw [hugeFile, List.length_append, length_fillHeader, List.length_append, length_lePut, hlen]
  rfl

theorem lookup_hugeStore : hugeStore.dir.lookup (keyPath (utf8 "t")) = some hugeFile := by
  rw [hugeStore, ← AList.insert_empty]
  exact AList.lookup_insert _

theorem scan_hugeFile : scan ⟨keyPath (utf8 "t"), hugeFile⟩ = some hugeEntry := by
  have hhead : readHeader hugeFile = some hugeEntry.toHeader := by
    rw [hugeFile, readHeader_fill (by simp) (by decide) (Or.inl rfl) (by decide)]
    rfl
  rw [scan_keyPath, readEntryFile_of_header hhead (by rw [length_hugeFile]; decide) (by decide), length_hugeFile]
  rfl

theorem listed_hugeStore {e : Entry} (hl : Listed hugeStore.dir e) : e = hugeEntry := by
  obtain ⟨data, hd, hs⟩ := hl
  have hpath : e.path = keyPath (utf8 "t") := by
    have hkeys : hugeStore.dir.keys = [keyPath (utf8 "t")] := AList.keys_singleton _ _
    have hin : e.path ∈ hugeStore.dir.keys := AList.mem_keys.mp (AList.lookup_isSome.mp (by rw [hd]; rfl))
    rw [hkeys] at hin
    exact List.mem_singleton.mp hin
  rw [hpath, lookup_hugeStore] at hd
  rw [hpath, ← Option.some.inj hd, scan_hugeFile] at hs
  exact (Option.some.inj hs).symm

/-- The file's count is at least the minimum, but as an `int` it is negative. -/
theorem huge_file_skipped :
    ¬∀ (kc : KvStore) (host : Host) (prompt : Bytes) (m q c : Int), kc.enabled = true → (0 : UInt8) ∉ prompt →
      FindsBest kc host (fun n => (n : Int)) prompt m q c := by
  intro h
  have hlen : (utf8 "t").length = 1 := by decide
  have hbest := h hugeStore plainHost (utf8 "t") 0 2 4096 rfl sampleText_no_nul
  have heligible : Eligible hugeStore (fun n => (n : Int)) (utf8 "t") 0 2 4096 hugeEntry := by
    refine ⟨⟨hugeFile, lookup_hugeStore, scan_hugeFile⟩, hlen.ge, by decide, rfl, by decide, fun _ => rfl, ?_⟩
    have htake : (utf8 "t").take 1 = utf8 "t" := List.take_of_length_le hlen.le
    exact congrArg sha1BytesHex htake.symm
  have hen : hugeStore.enabled = true := rfl
  rcases find_cases (m := 0) (q := 2) (c := 4096) hen sampleText_no_nul plainHost with ⟨hnone, -⟩ | ⟨i, e, -, -, he, -⟩
  · exact hbest.none_iff.mp hnone hugeEntry heligible
  · have hcount := he.tokens
    rw [listed_hugeStore he.listed] at hcount
    exact absurd hcount (by decide)

end Ds4.Store
