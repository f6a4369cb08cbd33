import Mathlib.Algebra.BigOperators.Group.List.Basic
import Ds4.Engine.Gguf

/- The walk of the directory is bounded, and the sizes it finds.

   `Cursor.Ok` is the invariant: cursor and reads inside the file, and fewer
   reads than bytes passed, so that a count in the file cannot make the walk
   longer than the file. Each function has a `_safe` lemma that follows its text.

   PROVED: for every file, whether it is accepted or not, no read leaves it and
   there are at most as many reads as bytes; and where it is accepted, a tensor
   of a supported type has its right size and lies in the file if and only if
   neither the rounding up to blocks nor the product with the block size wraps
   (`modelOpen_bounded`). A file where it wraps is accepted (`modelOpen_wrapped`). -/

namespace Ds4.Engine
open Ds4 Bytes Ds4.Store

variable {f : ModelFile} {α : Type}

/-! ## The cursor stays inside -/

/-- The cursor and all it has read are inside the file, with `k` reads to spare:
    there have been fewer than it has passed bytes. -/
structure Cursor.Ok (f : ModelFile) (k : Nat) (c : Cursor) : Prop where
  pos_le : c.pos ≤ f.size
  reads : ∀ r ∈ c.reads, r.1 + r.2 ≤ f.size
  count : c.reads.length + k ≤ c.pos

theorem Cursor.Ok.mono {k j : Nat} {c : Cursor} (h : c.Ok f k) (hj : j ≤ k) : c.Ok f j :=
  ⟨h.pos_le, h.reads, by have := h.count; omega⟩

/-- What a parser does that starts with `k` reads to spare. -/
abbrev Safe (f : ModelFile) (k : Nat) (p : Parse α) (Q : α → Cursor → Prop) : Prop :=
  Triple (Cursor.Ok f k) p Q (Cursor.Ok f 0)

theorem cursorError_safe {k : Nat} {msg : String} {Q : α → Cursor → Prop} : Safe f k (cursorError msg : Parse α) Q :=
  fun _ hc => hc.mono (Nat.zero_le k)

theorem throw_safe {k : Nat} {msg : String} {Q : α → Cursor → Prop} : Safe f k (throw msg : Parse α) Q :=
  Triple.throw fun _ hc => hc.mono (Nat.zero_le k)

theorem cursorHas_run (n : Nat) (c : Cursor) : cursorHas f n c =
    if n > f.size ∨ c.pos > f.size - n then .error ("truncated GGUF file" ++ " at byte " ++ toString c.pos) c
    else .ok () c := by
  have h : cursorHas f n c =
      (if n > f.size ∨ c.pos > f.size - n then cursorError "truncated GGUF file" else pure () : Parse Unit) c := rfl
  rw [h]
  split_ifs
  · rfl
  · rfl

theorem cursorHas_safe (k n : Nat) : Safe f k (cursorHas f n) fun _ c => c.pos + n ≤ f.size ∧ c.Ok f k := by
  intro c hc
  rw [cursorHas_run]
  split_ifs with h
  · exact hc.mono (Nat.zero_le k)
  · exact ⟨by omega, hc⟩

theorem cursorSkip_safe (k n : Nat) : Safe f k (cursorSkip f n) fun _ c => c.Ok f (k + n) :=
  (cursorHas_safe k n).bind fun _ => fun c ⟨hn, hc⟩ =>
    ⟨hn, hc.reads, show c.reads.length + (k + n) ≤ c.pos + n by have := hc.count; omega⟩

theorem cursorRead_at (k p n : Nat) :
    Triple (fun c => c.pos = p ∧ c.Ok f k) (cursorRead f (n + 1))
      (fun b c => (b = span f.bytes p (n + 1) ∧ p + (n + 1) ≤ f.size) ∧ c.Ok f (k + n)) (Cursor.Ok f 0) := by
  have hhas : Triple (fun c => c.pos = p ∧ c.Ok f k) (cursorHas f (n + 1))
      (fun _ c => c.pos = p ∧ c.pos + (n + 1) ≤ f.size ∧ c.Ok f k) (Cursor.Ok f 0) := by
    rintro c ⟨hp, hc⟩
    rw [cursorHas_run]
    split_ifs with h
    · exact hc.mono (Nat.zero_le k)
    · exact ⟨hp, by omega, hc⟩
  refine hhas.bind fun _ => fun c ⟨hp, hn, hc⟩ => ⟨⟨by rw [← hp], by omega⟩, hn, fun r hr => ?_, ?_⟩
  · rcases List.mem_cons.mp hr with rfl | hr
    · exact hn
    · exact hc.reads r hr
  · have := hc.count
    show c.reads.length + 1 + (k + n) ≤ c.pos + (n + 1)
    omega

theorem cursorU32_at (k p : Nat) :
    Triple (fun c => c.pos = p ∧ c.Ok f k) (cursorU32 f)
      (fun v c => (v = leGet (span f.bytes p 4) ∧ p + 4 ≤ f.size) ∧ c.Ok f (k + 3)) (Cursor.Ok f 0) :=
  (cursorRead_at k p 3).bind fun b => Triple.pure fun _ ⟨⟨hb, hp⟩, hc⟩ => ⟨⟨by rw [hb], hp⟩, hc⟩

theorem cursorU32_safe (k : Nat) : Safe f k (cursorU32 f) fun _ c => c.Ok f (k + 3) := by
  intro c hc
  exact (cursorU32_at k c.pos).post (fun _ _ h => h.2) c ⟨rfl, hc⟩

theorem cursorU64_safe (k : Nat) : Safe f k (cursorU64 f) fun v c => v < 2 ^ 64 ∧ c.Ok f (k + 7) := by
  intro c hc
  refine ((cursorRead_at k c.pos 7).bind fun b => Triple.pure fun _ ⟨⟨hb, hp⟩, hc⟩ => ⟨?_, hc⟩) c ⟨rfl, hc⟩
  have hlt := leGet_lt b
  rw [hb, length_span hp] at hlt
  rwa [hb]

theorem cursorString_safe (k : Nat) :
    Safe f k (cursorString f) fun s c => s.pos + s.len = c.pos ∧ c.Ok f (k + 7) :=
  (cursorU64_safe k).bind fun len => Triple.assume fun _ => (cursorHas_safe (k + 7) len).bind fun _ => fun c ⟨hn, hc⟩ =>
    ⟨rfl, hn, hc.reads, show c.reads.length + (k + 7) ≤ c.pos + len by have := hc.count; omega⟩

/-- One read of bytes before the cursor. -/
theorem note_safe {k pos n : Nat} {c : Cursor} (hc : c.Ok f (k + 1)) (hn : pos + n ≤ f.size) :
    ({ c with reads := (pos, n) :: c.reads } : Cursor).Ok f k := by
  refine ⟨hc.pos_le, fun r hr => ?_, ?_⟩
  · rcases List.mem_cons.mp hr with rfl | hr
    · exact hn
    · exact hc.reads r hr
  · have := hc.count
    show c.reads.length + 1 + k ≤ c.pos
    omega

theorem streq_safe (k : Nat) {s : Str} (hs : s.pos + s.len ≤ f.size) (z : Bytes) :
    Safe f (k + 1) (streq f s z) fun _ c => c.Ok f k := by
  rw [streq]
  exact Triple.ite (fun hlen => fun c hc => note_safe hc (by omega)) fun _ => Triple.pure fun c hc =>
    hc.mono (Nat.le_succ k)

theorem peekU32_safe (k : Nat) : Safe f (k + 1) (peekU32 f) fun _ c => c.Ok f k := by
  intro c hc
  have hrun : cursorU32 f c =
      if 4 > f.size ∨ c.pos > f.size - 4 then .error ("truncated GGUF file" ++ " at byte " ++ toString c.pos) c
      else .ok (leGet (span f.bytes c.pos 4)) ⟨c.pos + 4, (c.pos, 4) :: c.reads⟩ := by
    show EStateM.bind (EStateM.bind (cursorHas f 4) _) _ c = _
    rw [EStateM.bind, EStateM.bind, cursorHas_run]
    split_ifs
    · rfl
    · rfl
  rw [peekU32, hrun]
  split_ifs with h
  · exact hc.mono (Nat.le_succ k)
  · exact note_safe (c := c) hc (by omega)

/-! ## Metadata -/

theorem repeatParse_safe {k : Nat} {p : Parse Unit} (hp : Safe f k p fun _ c => c.Ok f k) :
    ∀ n, Safe f k (repeatParse n p) fun _ c => c.Ok f k
  | 0 => Triple.pure fun _ hc => hc
  | n + 1 => hp.bind fun _ => repeatParse_safe hp n

theorem skipValue_safe (k : Nat) : ∀ left type, Safe f k (skipValue f left type) fun _ c => c.Ok f k
  | 0, _ => cursorError_safe
  | left + 1, type => by
    rw [skipValue]
    refine Triple.ite (fun _ => (cursorSkip_safe k _).post fun _ _ hc => hc.mono (Nat.le_add_right _ _)) fun _ =>
      Triple.ite (fun _ => ?_) fun _ => Triple.ite (fun _ => ?_) fun _ => cursorError_safe
    · exact (cursorString_safe k).bind fun _ => Triple.pure fun _ hc => hc.2.mono (Nat.le_add_right _ _)
    · refine (cursorU32_safe k).bind fun itemType =>
        (cursorU64_safe (k + 3)).bind fun len => Triple.assume fun _ => ?_
      refine Triple.ite (fun _ => Triple.ite (fun _ => cursorError_safe) fun _ => ?_) fun _ => ?_
      · exact (cursorSkip_safe (k + 3 + 7) _).post fun _ _ hc => hc.mono (by omega)
      · exact Triple.pre (repeatParse_safe (skipValue_safe k left itemType) len) fun _ hc => hc.mono (by omega)

/-- Where a string that has just been read lies. -/
theorem string_inside {k : Nat} {s : Str} {c : Cursor} (h : s.pos + s.len = c.pos ∧ c.Ok f k) :
    s.pos + s.len ≤ f.size ∧ c.Ok f k := ⟨h.1 ▸ h.2.pos_le, h.2⟩

theorem parseMetadata_safe (k : Nat) : ∀ n alignment,
    Safe f k (parseMetadata f n alignment) fun _ c => c.Ok f k
  | 0, _ => Triple.pure fun _ hc => hc
  | n + 1, alignment => by
    rw [parseMetadata]
    refine ((cursorString_safe k).post fun _ _ h => string_inside h).bind fun key => Triple.assume fun hkey =>
      (cursorU32_safe (k + 7)).bind fun type => Triple.bind (Triple.get (Q := fun _ => Cursor.Ok f (k + 9 + 1))
        fun _ hc => hc) fun _ => Triple.bind (streq_safe (k + 9) hkey _) fun named => ?_
    refine Triple.ite (fun _ => (peekU32_safe (k + 8)).bind fun asked => ?_) fun _ =>
      Triple.bind (Triple.pure (Q := fun _ => Cursor.Ok f (k + 8)) fun _ hc => hc.mono (by omega)) fun asked => ?_
    all_goals
      exact (skipValue_safe (k + 8) 9 type).bind fun _ =>
        (Triple.pre (parseMetadata_safe k n _) fun _ hc => hc.mono (by omega)).bind fun r => Triple.pure fun _ hc => hc

/-! ## Tensors -/

/-- The directory entry of `t` as it was read: its element count is the product
    of its dimensions, and its size is what `tensor_nbytes` makes of it. -/
structure Tensor.Read (t : Tensor) : Prop where
  elements : t.elements = t.dims.prod
  elements_lt : t.elements < 2 ^ 64
  bytes : t.bytes = (tensorNbytes t.type t.elements).getD 0

theorem readDims_safe (k : Nat) : ∀ n elements, elements < 2 ^ 64 →
    Safe f k (readDims f n elements) fun r c => (r.2 = elements * r.1.prod ∧ r.2 < 2 ^ 64) ∧ c.Ok f k
  | 0, elements, h => Triple.pure fun _ hc => ⟨⟨by simp, h⟩, hc⟩
  | n + 1, elements, h => by
    rw [readDims]
    refine (cursorU64_safe k).bind fun d => Triple.assume fun _ => ?_
    have hguard : ¬(d ≠ 0 ∧ elements > u64Max / d) → elements * d < 2 ^ 64 := by
      intro hno
      rcases Nat.eq_zero_or_pos d with rfl | hd
      · omega
      · have hle : elements ≤ u64Max / d := by
          by_contra hgt
          exact hno ⟨by omega, by omega⟩
        have := (Nat.le_div_iff_mul_le hd).mp hle
        rw [u64Max] at this
        omega
    by_cases hbad : d ≠ 0 ∧ elements > u64Max / d
    · simp only [if_pos hbad]
      exact Triple.bind (Q := fun _ _ => False) throw_safe fun _ => fun _ h => h.elim
    · have hprod := hguard hbad
      simp only [if_neg hbad, Nat.mod_eq_of_lt hprod]
      refine (Triple.pre (readDims_safe k n _ hprod) fun _ hc => hc.mono (by omega)).bind fun r =>
        Triple.pure fun _ ⟨⟨hr, hlt⟩, hc⟩ => ⟨⟨?_, hlt⟩, hc⟩
      rw [hr, List.prod_cons, Nat.mul_assoc]

/-- A count of at most eight dimensions has a zero among its bytes. -/
theorem nul_of_small {b : Bytes} (hb : b.length = 4) (h : leGet b ≤ 8) : (0 : UInt8) ∈ b := by
  match b, hb with
  | [b0, b1, b2, b3], _ =>
    have hb1 : b1.toNat = 0 := by
      simp only [leGet] at h
      omega
    have : b1 = 0 := UInt8.toNat_inj.mp hb1
    simp [this]

theorem cstr_length_lt {b : Bytes} {n : Nat} (h : (0 : UInt8) ∈ b.take n) : (cstr b).length < n := by
  by_contra hge
  have hpre : b.take n <+: cstr b :=
    List.prefix_of_prefix_length_le (List.take_prefix n b) (List.takeWhile_prefix _) (by rw [List.length_take]; omega)
  exact cstr_no_nul b (hpre.subset h)

theorem warnUnsupported_safe (k : Nat) {s : Str} {n : Nat} (hs : s.pos + n ≤ f.size)
    (hnul : (0 : UInt8) ∈ (f.bytes.drop s.pos).take n) :
    Safe f (k + 1) (warnUnsupported f s) fun _ c => c.Ok f k := by
  intro c hc
  have := cstr_length_lt hnul
  exact note_safe hc (by split_ifs <;> omega)

theorem readTensor_safe (k : Nat) : Safe f k (readTensor f) fun t c => t.Read ∧ c.Ok f k := by
  rw [readTensor]
  refine (cursorString_safe k).bind fun name => ?_
  refine Triple.bind (Triple.pre (cursorU32_at (k + 7) (name.pos + name.len)) fun _ h => ⟨h.1.symm, h.2⟩) fun ndim =>
    Triple.assume fun hread => ?_
  obtain ⟨hndim, hin⟩ := hread
  by_cases hbad : ndim = 0 ∨ ndim > maxDims
  · simp only [if_pos hbad]
    exact Triple.bind (Q := fun _ _ => False) throw_safe fun _ => fun _ h => h.elim
  simp only [if_neg hbad]
  have hnul : (0 : UInt8) ∈ (f.bytes.drop name.pos).take (name.len + 4) := by
    have hzero := nul_of_small (length_span hin) (by rw [← hndim]; rw [maxDims] at hbad; omega)
    rw [span, ← List.drop_drop] at hzero
    rw [List.take_add]
    exact List.mem_append_right _ hzero
  refine (readDims_safe (k + 10) ndim 1 (by decide)).bind fun r => Triple.assume fun hdims => ?_
  obtain ⟨helems, hlt⟩ := hdims
  refine (cursorU32_safe (k + 10)).bind fun type => (cursorU64_safe (k + 13)).bind fun relOffset =>
    Triple.assume fun _ => ?_
  cases hbytes : tensorNbytes type r.2 with
  | some bytes =>
    exact Triple.pure fun _ hc => ⟨⟨by simpa using helems, hlt, by simp [hbytes]⟩, hc.mono (by omega)⟩
  | none =>
    refine (Triple.pre (warnUnsupported_safe k (by omega) hnul) fun _ hc => hc.mono (by omega)).bind fun _ => ?_
    exact Triple.pure fun _ hc => ⟨⟨by simpa using helems, hlt, by simp [hbytes]⟩, hc⟩

theorem readTensors_safe (k : Nat) : ∀ n, Safe f k (readTensors f n) fun ts c => (∀ t ∈ ts, t.Read) ∧ c.Ok f k
  | 0 => Triple.pure fun _ hc => ⟨fun _ h => (by cases h), hc⟩
  | n + 1 => by
    refine (readTensor_safe k).bind fun t => Triple.assume fun ht => (readTensors_safe k n).bind fun ts =>
      Triple.pure fun _ ⟨hts, hc⟩ => ⟨List.forall_mem_cons.mpr ⟨ht, hts⟩, hc⟩

/-- A tensor with a size lies in the file. -/
def Tensor.Placed (f : ModelFile) (t : Tensor) : Prop := t.bytes ≠ 0 → t.absOffset + t.bytes ≤ f.size

theorem placeTensor_safe (k dataPos : Nat) {t : Tensor} (ht : t.Read) :
    Safe f k (placeTensor f dataPos t) fun t' c => (t'.Read ∧ t'.Placed f) ∧ c.Ok f k := by
  rw [placeTensor]
  by_cases hover : t.relOffset > u64Max - dataPos
  · simp only [if_pos hover]
    exact Triple.bind (Q := fun _ _ => False) throw_safe fun _ => fun _ h => h.elim
  simp only [if_neg hover]
  by_cases hout : t.bytes ≠ 0 ∧ (dataPos + t.relOffset > f.size ∨ t.bytes > f.size - (dataPos + t.relOffset))
  · simp only [if_pos hout]
    exact Triple.bind (Q := fun _ _ => False) throw_safe fun _ => fun _ h => h.elim
  · simp only [if_neg hout]
    refine Triple.pure fun _ hc => ⟨⟨⟨ht.elements, ht.elements_lt, ht.bytes⟩, fun hne => ?_⟩, hc⟩
    have hne : t.bytes ≠ 0 := hne
    show dataPos + t.relOffset + t.bytes ≤ f.size
    by_contra hgt
    exact hout ⟨hne, by omega⟩

theorem placeTensors_safe (k dataPos : Nat) : ∀ ts : List Tensor, (∀ t ∈ ts, t.Read) →
    Safe f k (placeTensors f dataPos ts) fun ts' c => (∀ t ∈ ts', t.Read ∧ t.Placed f) ∧ c.Ok f k
  | [], _ => Triple.pure fun _ hc => ⟨fun _ h => (by cases h), hc⟩
  | t :: ts, h => by
    rw [List.forall_mem_cons] at h
    exact (placeTensor_safe k dataPos h.1).bind fun t' => Triple.assume fun ht' =>
      (placeTensors_safe k dataPos ts h.2).bind fun ts' =>
        Triple.pure fun _ ⟨hts, hc⟩ => ⟨List.forall_mem_cons.mpr ⟨ht', hts⟩, hc⟩

theorem parseTensors_safe (k : Nat) (alloc : Nat → Bool) (n alignment : Nat) :
    Safe f k (parseTensors f alloc n alignment) fun r c => (∀ t ∈ r.1, t.Read ∧ t.Placed f) ∧ c.Ok f k := by
  rw [parseTensors]
  by_cases halloc : alloc n = false
  · simp only [if_pos halloc]
    exact Triple.bind (Q := fun _ _ => False) throw_safe fun _ => fun _ h => h.elim
  simp only [if_neg halloc]
  exact (readTensors_safe k n).bind fun ts => Triple.assume fun hts =>
    Triple.bind (Triple.get (Q := fun _ => Cursor.Ok f k) fun _ hc => hc) fun c =>
      (placeTensors_safe k (alignUp c.pos alignment) ts hts).bind fun ts' => Triple.pure fun _ h => h

theorem modelOpen_safe (f : ModelFile) (alloc : Nat → Bool) :
    Safe f 0 (modelOpen f alloc) fun m c => (∀ t ∈ m.tensors, t.Read ∧ t.Placed f) ∧ c.Ok f 0 := by
  have hdie : ∀ {k : Nat} {msg : String} {p : Unit → Parse Model}, Safe f k (throw msg >>= p) fun m c =>
      (∀ t ∈ m.tensors, t.Read ∧ t.Placed f) ∧ c.Ok f 0 := fun {k msg p} =>
    Triple.bind (Q := fun _ _ => False) throw_safe fun _ => fun _ h => h.elim
  rw [modelOpen]
  refine Triple.ite (fun _ => hdie) fun _ => (cursorU32_safe 0).bind fun magic => ?_
  refine Triple.ite (fun _ => hdie) fun _ => (cursorU32_safe 3).bind fun version => (cursorU64_safe 6).bind fun nTensors =>
    Triple.assume fun _ => (cursorU64_safe 13).bind fun nKv => Triple.assume fun _ => ?_
  refine Triple.ite (fun _ => hdie) fun _ => Triple.ite (fun _ => hdie) fun _ => ?_
  refine (parseMetadata_safe 20 nKv 32).bind fun r => (parseTensors_safe 20 alloc nTensors r.2).bind fun r' =>
    Triple.pure fun _ ⟨hts, hc⟩ => ⟨hts, hc.mono (Nat.zero_le _)⟩

/-- The cursor a run of `p` ends with. -/
def lastCursor (p : Parse α) (c : Cursor) : Cursor :=
  match p c with
  | .ok _ c' => c'
  | .error _ c' => c'

theorem tensorType_blocks {type : Nat} {info : GgufTypeInfo} (h : tensorType type = some info) :
    (0 < info.blockElems ∧ info.blockElems ≤ 256) ∧ 0 < info.blockBytes := by
  have hmem : some info ∈ ggufTypes := by
    rw [tensorType, Option.join_eq_some_iff] at h
    exact List.mem_of_getElem? h
  have hall : ∀ o ∈ ggufTypes, ∀ i, o = some i → (0 < i.blockElems ∧ i.blockElems ≤ 256) ∧ 0 < i.blockBytes := by
    simp [ggufTypes]
  exact hall _ hmem info rfl

/-- The size is right if and only if neither the rounding up nor the product wraps. -/
theorem tensor_size_iff {t : Tensor} (ht : t.Read) (hp : t.Placed f) {info : GgufTypeInfo}
    (hinfo : tensorType t.type = some info) (hne : t.dims.prod ≠ 0) :
    (t.bytes = (t.dims.prod + info.blockElems - 1) / info.blockElems * info.blockBytes ∧
      t.absOffset + t.bytes ≤ f.size) ↔
    t.dims.prod + info.blockElems ≤ 2 ^ 64 ∧
      (t.dims.prod + info.blockElems - 1) / info.blockElems * info.blockBytes < 2 ^ 64 := by
  obtain ⟨⟨he, hsmall⟩, hb⟩ := tensorType_blocks hinfo
  have hlt := ht.elements_lt
  have hbytes := ht.bytes
  rw [ht.elements] at hlt hbytes
  generalize t.dims.prod = n at hne hlt hbytes ⊢
  have hpos : 0 < (n + info.blockElems - 1) / info.blockElems := Nat.div_pos (by omega) he
  have hrun : tensorNbytes t.type n =
      if (n + info.blockElems - 1) % 2 ^ 64 / info.blockElems > u64Max / info.blockBytes then none
      else some ((n + info.blockElems - 1) % 2 ^ 64 / info.blockElems * info.blockBytes) := by
    have hzero : ¬info.blockElems = 0 := by omega
    simp only [tensorNbytes, hinfo, Option.bind_eq_bind, Option.bind_some, if_neg hzero]
    split_ifs <;> rfl
  have hsize := f.size_lt
  constructor
  · rintro ⟨hright, hin⟩
    have hfits : (n + info.blockElems - 1) / info.blockElems * info.blockBytes < 2 ^ 64 := by
      have : t.bytes ≤ f.size := by omega
      rw [ModelFile.size] at this
      omega
    refine ⟨?_, hfits⟩
    by_contra hover
    have hwrap : (n + info.blockElems - 1) % 2 ^ 64 / info.blockElems = 0 := by
      rw [Nat.mod_eq_sub_mod (by omega), Nat.mod_eq_of_lt (by omega)]
      exact Nat.div_eq_of_lt (by omega)
    have hzero : t.bytes = 0 := by
      rw [hbytes, hrun, hwrap]
      simp
    have := Nat.mul_pos hpos hb
    omega
  · rintro ⟨hround, hfits⟩
    have hblocks : ¬(n + info.blockElems - 1) % 2 ^ 64 / info.blockElems > u64Max / info.blockBytes := by
      rw [Nat.mod_eq_of_lt (by omega), not_lt, Nat.le_div_iff_mul_le hb, u64Max]
      omega
    rw [hrun, if_neg hblocks, Nat.mod_eq_of_lt (by omega), Option.getD_some] at hbytes
    have := Nat.mul_pos hpos hb
    exact ⟨hbytes, hp (by omega)⟩

theorem modelOpen_bounded (f : ModelFile) (alloc : Nat → Bool) :
    (∀ r ∈ (lastCursor (modelOpen f alloc) ⟨0, []⟩).reads, r.1 + r.2 ≤ f.size) ∧
    (lastCursor (modelOpen f alloc) ⟨0, []⟩).reads.length ≤ f.size ∧
    ∀ m c, modelOpen f alloc ⟨0, []⟩ = .ok m c → ∀ t ∈ m.tensors, ∀ info, tensorType t.type = some info →
      t.dims.prod ≠ 0 →
      ((t.bytes = (t.dims.prod + info.blockElems - 1) / info.blockElems * info.blockBytes ∧
          t.absOffset + t.bytes ≤ f.size) ↔
        t.dims.prod + info.blockElems ≤ 2 ^ 64 ∧
          (t.dims.prod + info.blockElems - 1) / info.blockElems * info.blockBytes < 2 ^ 64) := by
  have hsafe := modelOpen_safe f alloc ⟨0, []⟩ ⟨Nat.zero_le _, fun _ h => (by cases h), Nat.le_refl 0⟩
  have hinside : ∀ {c : Cursor}, c.Ok f 0 → (∀ r ∈ c.reads, r.1 + r.2 ≤ f.size) ∧ c.reads.length ≤ f.size :=
    fun hc => ⟨hc.reads, by have := hc.count; have := hc.pos_le; omega⟩
  rw [lastCursor]
  cases hrun : modelOpen f alloc ⟨0, []⟩ with
  | error e c =>
    rw [hrun] at hsafe
    exact ⟨(hinside hsafe).1, (hinside hsafe).2, fun _ _ h => by cases h⟩
  | ok m c =>
    rw [hrun] at hsafe
    obtain ⟨hts, hc⟩ := hsafe
    refine ⟨(hinside hc).1, (hinside hc).2, fun m' c' h t ht info hinfo hne => ?_⟩
    cases h
    exact tensor_size_iff (hts t ht).1 (hts t ht).2 hinfo hne

/-- One q4_0 tensor of `2 ^ 64 - 1` elements, and nothing behind the directory. -/
def wrappedFile : ModelFile where
  bytes := lePut 4 ggufMagic ++ lePut 4 3 ++ lePut 8 1 ++ lePut 8 0 ++
    (lePut 8 0 ++ lePut 4 1 ++ lePut 8 (2 ^ 64 - 1) ++ lePut 4 2 ++ lePut 8 0)
  size_lt := by decide

/-- The rounding up wraps to no block at all, and the file is accepted. -/
theorem modelOpen_wrapped :
    ∃ m c t, modelOpen wrappedFile (fun _ => true) ⟨0, []⟩ = .ok m c ∧ m.tensors = [t] ∧
      tensorType t.type = some ⟨32, 18⟩ ∧ t.dims.prod = 2 ^ 64 - 1 ∧ t.bytes = 0 := by
  refine ⟨_, _, _, rfl, rfl, rfl, by decide, rfl⟩

end Ds4.Engine
