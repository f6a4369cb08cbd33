import Mathlib.Algebra.BigOperators.Group.List.Basic
import Ds4.Rax.Tree

/- Insertion into the radix tree of rax.c: how a node gets one more edge, how a
   compressed node is split, and what the tree holds afterwards.

   Correspondence (C ↔ Lean):
     `rax`, `raxNew`                  ↔ `Rax`, `raxNew`
     `raxNodeFindChildPos`            ↔ `findChildPos`
     `raxAddChildNoAlloc`             ↔ `addChildNoAlloc`, with the child to be
     the last loop of `raxGenericInsert`, its algorithms 1 and 2
                                      ↔ `grow`, `splitApart`, `splitInside`
     `raxGenericInsert`               ↔ `raxGenericInsert`
   The numbers beside the nodes are what the source adds to `numnodes`.

   What is proved: an insertion sets its key and keeps every other one
   (`raxGenericInsert_spec`). -/
namespace Ds4.Radix

variable {V : Type}

structure Rax (V : Type) where
  head : RaxNode V
  numele : Nat
  numnodes : Nat

def raxNew : Rax V := ⟨.empty, 0, 1⟩

/-! ## One more edge -/

def findChildPos (n : RaxNode V) (c : UInt8) : Nat := (n.data.takeWhile fun d => !decide (c < d)).length

/-- A node that only holds a value. -/
def valueNode (v : V) : RaxNode V := ⟨some v, false, [], []⟩

/-- Slot 12 is emptied of a value that is about to move to slot 13, for which `leafbitmap` has no bit. -/
def spill (n : RaxNode V) (pos : Nat) : RaxNode V × Nat :=
  match (n.kids[12]? : Option (Slot V)) with
  | some (.inlined v) => if pos ≤ 12 then (n.setKid 12 (valueNode v).toSlot, 1) else (n, 0)
  | _ => (n, 0)

def addChildNoAlloc (n : RaxNode V) (c : UInt8) (s : Slot V) : RaxNode V × Nat :=
  let pos := findChildPos n c
  let (n, m) := spill n pos
  ({ n with data := n.data.insertIdx pos c, kids := n.kids.insertIdx pos s }, m)

/-- The loop that inserts the nodes still missing below `h`. -/
def grow (h : RaxNode V) (s : Bytes) (data : V) : RaxNode V × Nat :=
  match s with
  | [] => ({ h with key := some data }, 0)
  | c :: cs =>
    if h.data = [] ∧ cs ≠ [] then
      let comprsize := min (c :: cs).length raxNodeMaxSize
      if comprsize = (c :: cs).length then
        ({ h with compr := true, data := c :: cs, kids := [.inlined data] }, 0)
      else
        let (child, m) := grow .empty ((c :: cs).drop comprsize) data
        ({ h with compr := true, data := (c :: cs).take comprsize, kids := [child.toSlot] }, m + 1)
    else if cs = [] ∧ findChildPos h c < 13 then addChildNoAlloc h c (.inlined data)
    else
      let (child, m) := grow .empty cs data
      let (n, m') := addChildNoAlloc h c child.toSlot
      (n, m + m' + 1)
termination_by s.length
decreasing_by
  · simp only [List.length_drop, List.length_cons, raxNodeMaxSize]
    omega
  · simp

/-! ## Splitting a compressed node -/

/-- What is left of a text behind its byte `j`, in front of the node it leads to. -/
def behindSlots (h : RaxNode V) (j : Nat) : List (Slot V) × Nat :=
  let behind := h.data.drop (j + 1)
  if behind = [] then (h.kids, 0) else ([.child none (decide (1 < behind.length)) behind h.kids], 1)

/-- The node that is split off at the byte `j` of `h`, before it gets its second edge. -/
def splitNode (h : RaxNode V) (j : Nat) : RaxNode V :=
  ⟨if j = 0 then h.key else none, false, (h.data.drop j).take 1, (behindSlots h j).1⟩

/-- Algorithm 1: the key leaves the text of `h` at its byte `j`. -/
def splitApart (h : RaxNode V) (j : Nat) (rest : Bytes) (data : V) : RaxNode V × Nat :=
  let (split, m) := grow (splitNode h j) rest data
  if j = 0 then (split, (behindSlots h j).2 + m)
  else (⟨h.key, decide (1 < j), h.data.take j, [split.toSlot]⟩, (behindSlots h j).2 + m + 1)

/-- Algorithm 2: the key ends inside the text of `h`, before its byte `j`. -/
def splitInside (h : RaxNode V) (j : Nat) (data : V) : RaxNode V :=
  ⟨h.key, decide (1 < j), h.data.take j, [.child (some data) (decide (1 < h.data.length - j)) (h.data.drop j) h.kids]⟩

/-- `raxGenericInsert`: the tree, whether the key is new, and the value it had. -/
def raxGenericInsert (t : Rax V) (s : Bytes) (data : V) (overwrite : Bool) : Rax V × Bool × Option V :=
  let w := lowWalk t.head s []
  match w.inlineAt with
  | some (j, v) =>
    if w.rest = [] then
      (if overwrite then { t with head := plug w.stack (w.node.setKid j (.inlined data)) } else t, false, some v)
    else
      -- The inlined value becomes a node of its own, for the key to go on from.
      let (leaf, m) := grow (valueNode v) w.rest data
      (⟨plug ((w.node, j) :: w.stack) leaf, t.numele + 1, t.numnodes + 1 + m⟩, true, none)
  | none =>
    if w.rest = [] ∧ (w.node.compr = false ∨ w.splitpos = 0) then
      let set := { t with head := plug w.stack { w.node with key := some data } }
      match w.node.key with
      | some v => (if overwrite then set else t, false, some v)
      | none => ({ set with numele := t.numele + 1 }, true, none)
    else if w.node.compr then
      if w.rest ≠ [] then
        let (n, m) := splitApart w.node w.splitpos w.rest data
        (⟨plug w.stack n, t.numele + 1, t.numnodes + m⟩, true, none)
      else (⟨plug w.stack (splitInside w.node w.splitpos data), t.numele + 1, t.numnodes + 1⟩, true, none)
    else
      let (n, m) := grow w.node w.rest data
      (⟨plug w.stack n, t.numele + 1, t.numnodes + m⟩, true, none)

/-! ## Nodes are counted -/

theorem sum_set_add {l : List Nat} {i a : Nat} (h : i < l.length) : (l.set i a).sum + l[i] = l.sum + a := by
  induction l generalizing i with
  | nil => cases h
  | cons x xs ih =>
    cases i with
    | zero => simp; omega
    | succ i =>
      have := ih (i := i) (by simpa using h)
      simp only [List.set_cons_succ, List.sum_cons, List.getElem_cons_succ]
      omega

theorem count_setKid {n : RaxNode V} {i : Nat} {s r : Slot V} (h : n.kids[i]? = some r) :
    (n.setKid i s).toSlot.count + r.count = n.toSlot.count + s.count := by
  obtain ⟨hi, rfl⟩ := List.getElem?_eq_some_iff.mp h
  have := sum_set_add (l := n.kids.map Slot.count) (i := i) (a := s.count) (by simpa using hi)
  simp only [RaxNode.setKid, RaxNode.toSlot, count_child, List.map_set, List.getElem_map] at this ⊢
  omega

/-- Two nodes at the end of one path differ by what the trees differ. -/
theorem count_plug {st : Stack V} (hok : StackOk st) (n n' : RaxNode V) :
    (plug st n').toSlot.count + n.toSlot.count = (plug st n).toSlot.count + n'.toSlot.count := by
  induction st generalizing n n' with
  | nil => simp [plug, Nat.add_comm]
  | cons f st ih =>
    obtain ⟨p, i⟩ := f
    obtain ⟨r, hr⟩ : ∃ r, p.kids[i]? = some r := ⟨_, List.getElem?_eq_getElem hok.head.here⟩
    have hih := ih hok.tail (p.setKid i n.toSlot) (p.setKid i n'.toSlot)
    have h1 := count_setKid (s := n.toSlot) hr
    have h2 := count_setKid (s := n'.toSlot) hr
    simp only [plug]
    omega

/-! ## What an insertion changes -/

/-- `n'` holds `v` at `r`, and elsewhere what `n` holds. -/
def Sets (r : Bytes) (v : V) (n n' : RaxNode V) : Prop :=
  ∀ k w, (k, w) ∈ n'.entries ↔ if k = r then w = v else (k, w) ∈ n.entries

theorem mem_withKey {n : RaxNode V} {k : Bytes} {w : V} (hk : k ≠ []) (key : Option V) :
    (k, w) ∈ ({ n with key } : RaxNode V).entries ↔ (k, w) ∈ n.entries := by
  simp only [RaxNode.entries, RaxNode.toSlot, mem_child, hk, false_and, false_or]

theorem sets_key {n : RaxNode V} (hfit : Fits n.compr n.data n.kids.length) (v : V) :
    Sets [] v n { n with key := some v } := by
  intro k w
  split
  next h =>
    subst h
    rw [mem_nil (n := { n with key := some v }) hfit, Option.some.injEq, eq_comm]
  next h => exact mem_withKey h _

theorem Sets.plug {st : Stack V} (hok : StackOk st) {r : Bytes} {v : V} {n n' : RaxNode V} (h : Sets r v n n') :
    Sets (path st ++ r) v (plug st n) (plug st n') := by
  intro k w
  split
  next hk =>
    rw [hk, mem_below hok, h r w, if_pos rfl]
  next hk =>
    rw [mem_plug hok, mem_plug hok]
    refine or_congr_left (exists_congr fun k' => and_congr_right fun hk' => ?_)
    rw [h k' w, if_neg]
    rintro rfl
    exact hk hk'

theorem Sets.live {r : Bytes} {v : V} {n n' : RaxNode V} (h : Sets r v n n') : n'.entries ≠ [] :=
  List.ne_nil_of_mem ((h r v).mpr (by rw [if_pos rfl]))

theorem zip_insertIdx {α β : Type} (as : List α) (bs : List β) (i : Nat) (a : α) (b : β)
    (h : as.length = bs.length) : (as.insertIdx i a).zip (bs.insertIdx i b) = (as.zip bs).insertIdx i (a, b) := by
  induction as generalizing bs i with
  | nil =>
    cases bs with
    | nil => cases i <;> rfl
    | cons => cases h
  | cons x as ih =>
    cases bs with
    | nil => cases h
    | cons y bs =>
      cases i with
      | zero => rfl
      | succ i => simp [ih bs i (Nat.succ.inj h)]

theorem findChildPos_le (n : RaxNode V) (c : UInt8) : findChildPos n c ≤ n.data.length :=
  (List.takeWhile_prefix _).length_le

/-- Making room in the bitmap changes nothing that is held. -/
theorem mem_spill (n : RaxNode V) (pos : Nat) (k : Bytes) (w : V) :
    (k, w) ∈ (spill n pos).1.entries ↔ (k, w) ∈ n.entries := by
  rw [spill]
  split
  next v hv =>
    split
    · simp only [RaxNode.entries, RaxNode.toSlot, RaxNode.setKid, mem_child_at]
      have h12 := (List.getElem?_eq_some_iff.mp hv).1
      refine or_congr_right ?_
      constructor
      · rintro ⟨i, l, s, hl, hs, k', hk, hm⟩
        rcases eq_or_ne i 12 with rfl | hne
        · rw [List.getElem?_set_self h12, Option.some.injEq] at hs
          subst hs
          refine ⟨12, l, _, hl, hv, k', hk, ?_⟩
          simpa [valueNode, RaxNode.toSlot, mem_child, eq_comm] using hm
        · rw [List.getElem?_set_ne (Ne.symm hne)] at hs
          exact ⟨i, l, s, hl, hs, k', hk, hm⟩
      · rintro ⟨i, l, s, hl, hs, k', hk, hm⟩
        rcases eq_or_ne i 12 with rfl | hne
        · refine ⟨12, l, _, hl, List.getElem?_set_self h12, k', hk, ?_⟩
          rw [hv, Option.some.injEq] at hs
          subst hs
          simpa [valueNode, RaxNode.toSlot, mem_child, eq_comm] using hm
        · exact ⟨i, l, s, hl, (List.getElem?_set_ne (Ne.symm hne)).trans hs, k', hk, hm⟩
    · rfl
  next => rfl

theorem spill_same (n : RaxNode V) (pos : Nat) :
    (spill n pos).1.key = n.key ∧ (spill n pos).1.compr = n.compr ∧ (spill n pos).1.data = n.data ∧
      (spill n pos).1.kids.length = n.kids.length := by
  rw [spill]
  split
  · split <;> simp [RaxNode.setKid]
  · simp

theorem mem_addChild {n : RaxNode V} (hc : n.compr = false) (hlen : n.kids.length = n.data.length) (c : UInt8)
    (s : Slot V) (k : Bytes) (w : V) :
    (k, w) ∈ (addChildNoAlloc n c s).1.entries ↔ (k, w) ∈ n.entries ∨ ∃ k', k = c :: k' ∧ (k', w) ∈ s.entries := by
  obtain ⟨hkey, hcompr, hdata, hkids⟩ := spill_same n (findChildPos n c)
  rw [← mem_spill n (findChildPos n c)]
  simp only [addChildNoAlloc, RaxNode.entries, RaxNode.toSlot, mem_child, hcompr, hc, hdata, labels, Bool.false_eq_true,
    if_false, List.map_insertIdx]
  have hpos := findChildPos_le n c
  rw [zip_insertIdx _ _ _ _ _ (by simp [hkids, hlen])]
  rw [or_assoc]
  refine or_congr_right ?_
  constructor
  · rintro ⟨p, hp, h⟩
    rcases (List.mem_insertIdx (by simp [hkids, hlen, hpos])).mp hp with rfl | hp
    · exact .inr h
    · exact .inl ⟨p, hp, h⟩
  · rintro (⟨p, hp, h⟩ | h)
    · exact ⟨p, (List.mem_insertIdx (by simp [hkids, hlen, hpos])).mpr (.inr hp), h⟩
    · exact ⟨([c], s), (List.mem_insertIdx (by simp [hkids, hlen, hpos])).mpr (.inl rfl), h⟩

/-- A node without children. -/
theorem shape_bare (key : Option V) : Shape (⟨key, false, [], []⟩ : RaxNode V).toSlot := by
  refine .child ⟨fun h => ?_, rfl, fun h => ?_, fun _ => .nil⟩ ?_ ?_ ?_
  · cases h
  · cases h
  · intro s hs
    cases hs
  · intro _ i v hi
    simp at hi
  · intro s hs
    cases hs

theorem shape_spill {n : RaxNode V} (hn : Shape n.toSlot) (pos : Nat) : Shape (spill n pos).1.toSlot := by
  rw [spill]
  split
  next v hv =>
    split
    · refine (hn.frame (List.getElem?_eq_some_iff.mp hv).1).setKid ?_ ?_ ?_
      · exact shape_bare (some v)
      · exact List.ne_nil_of_mem ((mem_nil (shape_bare (some v)).fits).mpr rfl)
      · intro w hw
        cases hw
    · exact hn
  next => exact hn

/-- No value is left in slot 12 where it would have to move to slot 13. -/
theorem spill_free (n : RaxNode V) {pos : Nat} (hpos : pos ≤ 12) (v : V) : (spill n pos).1.kids[12]? ≠ some (.inlined v) := by
  rw [spill]
  split
  next w hw =>
    rw [if_pos hpos]
    simp only [RaxNode.setKid, List.getElem?_set_self (List.getElem?_eq_some_iff.mp hw).1]
    intro h
    cases h
  next h => exact h v

theorem insertIdx_takeWhile {α : Type} (p : α → Bool) (l : List α) (a : α) :
    l.insertIdx (l.takeWhile p).length a = l.takeWhile p ++ a :: l.dropWhile p := by
  induction l with
  | nil => rfl
  | cons x l ih =>
    rw [List.takeWhile_cons, List.dropWhile_cons]
    split
    · simp [ih]
    · rfl

/-- The edges stay in order. -/
theorem edges_insert {n : RaxNode V} {c : UInt8} (hs : n.data.Pairwise (· < ·)) (habs : c ∉ n.data) :
    (n.data.insertIdx (findChildPos n c) c).Pairwise (· < ·) := by
  rw [findChildPos, insertIdx_takeWhile]
  have hsplit := List.takeWhile_append_dropWhile (p := fun d => !decide (c < d)) (l := n.data)
  have hle : ∀ d ∈ n.data.takeWhile (fun d => !decide (c < d)), d < c := by
    intro d hd
    have hnot : ¬c < d := by simpa using List.mem_takeWhile_imp hd
    have hne : d ≠ c := fun h => habs (h ▸ (List.takeWhile_prefix _).subset hd)
    exact UInt8.lt_of_le_of_ne (UInt8.not_lt.mp hnot) hne
  have hgt : ∀ d ∈ n.data.dropWhile (fun d => !decide (c < d)), c < d := by
    intro d hd
    rw [← hsplit] at hs
    cases hdw : n.data.dropWhile (fun d => !decide (c < d)) with
    | nil => rw [hdw] at hd; cases hd
    | cons e es =>
      have he : c < e := by
        have := List.head_dropWhile_not (fun d => !decide (c < d)) (l := n.data) (by rw [hdw]; exact List.cons_ne_nil _ _)
        simpa [hdw] using this
      rw [hdw] at hd hs
      rcases List.mem_cons.mp hd with rfl | hd
      · exact he
      · exact UInt8.lt_trans he (List.rel_of_pairwise_cons (List.pairwise_append.mp hs).2.1 hd)
  rw [← hsplit] at hs
  obtain ⟨h1, h2, h3⟩ := List.pairwise_append.mp hs
  refine List.pairwise_append.mpr ⟨h1, List.pairwise_cons.mpr ⟨hgt, h2⟩, ?_⟩
  intro a ha b hb
  rcases List.mem_cons.mp hb with rfl | hb
  · exact hle a ha
  · exact h3 a ha b hb

theorem shape_addChild {n : RaxNode V} (hn : Shape n.toSlot) (hc : n.compr = false) {c : UInt8} (habs : c ∉ n.data)
    {s : Slot V} (hs : Shape s) (hlive : s.entries ≠ []) (hsmall : ∀ v, s = .inlined v → findChildPos n c < 13) :
    Shape (addChildNoAlloc n c s).1.toSlot := by
  have hn' := shape_spill hn (findChildPos n c)
  obtain ⟨hkey, hcompr, hdata, hkids⟩ := spill_same n (findChildPos n c)
  have hlen : n.kids.length = n.data.length := by
    have := hn.fits.slots
    simpa [labels, hc] using this
  have hpos := findChildPos_le n c
  have hall : ∀ r ∈ (addChildNoAlloc n c s).1.kids, r = s ∨ r ∈ (spill n (findChildPos n c)).1.kids := by
    intro r hr
    exact (List.mem_insertIdx (by rw [hkids, hlen]; exact hpos)).mp hr
  have hkid : ∀ r ∈ (spill n (findChildPos n c)).1.kids, Shape r ∧ r.entries ≠ [] := by
    intro r hr
    obtain ⟨i, hi⟩ := List.mem_iff_getElem?.mp hr
    exact hn'.kid hi
  refine .child ⟨?_, ?_, ?_, ?_⟩ ?_ ?_ ?_
  · intro h
    simp [addChildNoAlloc, hcompr, hc] at h
  · simp [addChildNoAlloc, labels, hcompr, hc, hdata, List.length_insertIdx, hkids, hlen, hpos]
  · intro h
    simp [addChildNoAlloc, hcompr, hc] at h
  · intro _
    simp only [addChildNoAlloc, hdata]
    exact edges_insert (hn.fits.edges hc) habs
  · intro r hr
    rcases hall r hr with rfl | hr
    · exact hlive
    · exact (hkid r hr).2
  · intro _ i v hi
    simp only [addChildNoAlloc, List.getElem?_insertIdx] at hi
    split at hi
    · exact hn'.inline_lt (hcompr.trans hc) hi
    · split at hi
      next hlt heq =>
        split at hi
        · have := hsmall v (Option.some.inj hi)
          omega
        · cases hi
      next hlt hne =>
        -- a slot behind the new one was one place further in front
        have hold := hn'.inline_lt (hcompr.trans hc) hi
        have h12 : i - 1 ≠ 12 := by
          intro h
          rw [h] at hi
          exact spill_free n (by omega) v hi
        omega
  · intro r hr
    rcases hall r hr with rfl | hr
    · exact hs
    · exact (hkid r hr).1

theorem count_addChild {n : RaxNode V} (hlen : n.kids.length = n.data.length) (c : UInt8)
    (s : Slot V) : (addChildNoAlloc n c s).1.toSlot.count = n.toSlot.count + s.count + (addChildNoAlloc n c s).2 := by
  have hspill : (spill n (findChildPos n c)).1.toSlot.count = n.toSlot.count + (spill n (findChildPos n c)).2 := by
    rw [spill]
    split
    next v hv =>
      split
      · have := count_setKid (s := (valueNode v).toSlot) hv
        simp only [count_inlined, valueNode, RaxNode.toSlot, count_child] at this ⊢
        simpa using this
      · rfl
    next => rfl
  obtain ⟨hkey, hcompr, hdata, hkids⟩ := spill_same n (findChildPos n c)
  have hpos := findChildPos_le n c
  simp only [addChildNoAlloc, RaxNode.toSlot, count_child, List.map_insertIdx] at hspill ⊢
  rw [List.sum_insertIdx (by simp [hkids, hlen, hpos]) fun a _ => AddCommute.all _ _]
  omega

/-! ## Missing nodes -/

/-- A compressed node holds its key, and what hangs on its text. -/
theorem mem_compressed (key : Option V) (data : Bytes) (s : Slot V) (k : Bytes) (w : V) :
    (k, w) ∈ (⟨key, true, data, [s]⟩ : RaxNode V).entries ↔
      (k = [] ∧ key = some w) ∨ ∃ k', k = data ++ k' ∧ (k', w) ∈ s.entries := by
  simp [RaxNode.entries, RaxNode.toSlot, mem_child, labels]

/-- A node without edges holds its key only. -/
theorem mem_bare {n : RaxNode V} (hc : n.compr = false) (hd : n.data = []) (k : Bytes) (w : V) :
    (k, w) ∈ n.entries ↔ k = [] ∧ n.key = some w := by
  simp [RaxNode.entries, RaxNode.toSlot, mem_child, labels, hc, hd]

theorem shape_single {key : Option V} {compr : Bool} {data : Bytes} {s : Slot V} (hs : Shape s) (hlive : s.entries ≠ [])
    (hdata : data ≠ []) (hsize : data.length ≤ raxNodeMaxSize) (hone : compr = false → data.length = 1) :
    Shape (⟨key, compr, data, [s]⟩ : RaxNode V).toSlot := by
  refine .child ⟨fun _ => hsize, ?_, fun _ => hdata, fun h => ?_⟩ ?_ ?_ ?_
  · cases compr with
    | true => simp [labels]
    | false => simp [labels, hone rfl]
  · obtain ⟨c, rfl⟩ := List.length_eq_one_iff.mp (hone h)
    exact List.pairwise_singleton _ _
  · intro r hr
    rw [List.mem_singleton.mp hr]
    exact hlive
  · intro _ i v hi
    have := (List.getElem?_eq_some_iff.mp hi).1
    simp only [List.length_singleton] at this
    omega
  · intro r hr
    rw [List.mem_singleton.mp hr]
    exact hs

/-- What is set below an edge that was missing. -/
theorem sets_edge {h n' child : RaxNode V} {l r : Bytes} {v : V} (hl : ∀ k' w, (l ++ k', w) ∉ h.entries)
    (hchild : Sets r v .empty child)
    (hmem : ∀ k w, (k, w) ∈ n'.entries ↔ (k, w) ∈ h.entries ∨ ∃ k', k = l ++ k' ∧ (k', w) ∈ child.entries) :
    Sets (l ++ r) v h n' := by
  have hempty : ∀ k w, (k, w) ∉ (RaxNode.empty : RaxNode V).entries := by
    intro k w hm
    have := (mem_bare rfl rfl k w).mp hm
    cases this.2
  intro k w
  rw [hmem]
  split
  next hk =>
    subst hk
    constructor
    · rintro (hm | ⟨k', hk', hm⟩)
      · exact absurd hm (hl r w)
      · rw [← List.append_cancel_left hk', hchild r w, if_pos rfl] at hm
        exact hm
    · rintro rfl
      exact .inr ⟨r, rfl, (hchild r w).mpr (by rw [if_pos rfl])⟩
  next hk =>
    constructor
    · rintro (hm | ⟨k', rfl, hm⟩)
      · exact hm
      · rw [hchild k' w, if_neg fun h => hk (by rw [h])] at hm
        exact absurd hm (hempty _ _)
    · exact .inl

/-- The same where the edge leads to an inlined value. -/
theorem sets_inlined {h n' : RaxNode V} {l : Bytes} {v : V} (hl : ∀ w, (l, w) ∉ h.entries)
    (hmem : ∀ k w, (k, w) ∈ n'.entries ↔ (k, w) ∈ h.entries ∨ ∃ k', k = l ++ k' ∧ (k', w) ∈ (Slot.inlined v).entries) :
    Sets l v h n' := by
  intro k w
  rw [hmem]
  simp only [entries_inlined, List.mem_singleton, Prod.mk.injEq]
  split
  next hk =>
    subst hk
    constructor
    · rintro (hm | ⟨k', -, -, rfl⟩)
      · exact absurd hm (hl w)
      · rfl
    · rintro rfl
      exact .inr ⟨[], (List.append_nil _).symm, rfl, rfl⟩
  next hk =>
    constructor
    · rintro (hm | ⟨k', rfl, rfl, -⟩)
      · exact hm
      · exact absurd (List.append_nil _) hk
    · exact .inl

theorem kids_of_bare {h : RaxNode V} (hh : Shape h.toSlot) (hc : h.compr = false) (hd : h.data = []) : h.kids = [] := by
  have hlen := hh.fits.slots
  simpa [labels, hc, hd] using hlen

/-- A node without edges is turned into a compressed one. -/
theorem compress_spec {h : RaxNode V} (hh : Shape h.toSlot) (hc : h.compr = false) (hd : h.data = []) {l r : Bytes}
    {v : V} {s : Slot V} (hl : l ≠ []) (hsize : l.length ≤ raxNodeMaxSize) (hs : Shape s)
    (hm : ∀ k w, (k, w) ∈ s.entries ↔ k = r ∧ w = v) :
    Shape ({ h with compr := true, data := l, kids := [s] } : RaxNode V).toSlot ∧
      Sets (l ++ r) v h { h with compr := true, data := l, kids := [s] } ∧
      ({ h with compr := true, data := l, kids := [s] } : RaxNode V).toSlot.count = h.toSlot.count + s.count := by
  refine ⟨?_, ?_, ?_⟩
  · refine shape_single hs (List.ne_nil_of_mem ((hm r v).mpr ⟨rfl, rfl⟩)) hl hsize fun h => ?_
    cases h
  · intro k w
    rw [mem_compressed, mem_bare hc hd]
    simp only [hm]
    split
    next hk =>
      subst hk
      constructor
      · rintro (⟨hnil, -⟩ | ⟨k', -, -, rfl⟩)
        · exact absurd (List.append_eq_nil_iff.mp hnil).1 hl
        · rfl
      · rintro rfl
        exact .inr ⟨r, rfl, rfl, rfl⟩
    next hk =>
      constructor
      · rintro (hkey | ⟨k', rfl, rfl, -⟩)
        · exact hkey
        · exact absurd rfl hk
      · exact .inl
  · simp [RaxNode.toSlot, kids_of_bare hh hc hd]

theorem mem_of_sets_empty {r : Bytes} {v : V} {n : RaxNode V} (h : Sets r v .empty n) (k : Bytes) (w : V) :
    (k, w) ∈ n.entries ↔ k = r ∧ w = v := by
  rw [h k w]
  split
  next hk => simp [hk]
  next hk =>
    rw [mem_bare rfl rfl]
    simp [RaxNode.empty, hk]

theorem grow_spec {h : RaxNode V} {s : Bytes} (hh : Shape h.toSlot) (hc : h.compr = false)
    (habs : ∀ c, s.head? = some c → c ∉ h.data) (v : V) :
    Shape (grow h s v).1.toSlot ∧ Sets s v h (grow h s v).1 ∧
      (grow h s v).1.toSlot.count = h.toSlot.count + (grow h s v).2 := by
  have hempty : Shape (RaxNode.empty : RaxNode V).toSlot := shape_bare none
  induction h, s using grow.induct v with
  | case1 h =>
    rw [grow]
    refine ⟨?_, sets_key hh.fits v, by simp [RaxNode.toSlot]⟩
    cases hh with
    | child fits live small below => exact .child fits live small below
  | case2 h c cs hd size hsize =>
    have hg : grow h (c :: cs) v = ({ h with compr := true, data := c :: cs, kids := [.inlined v] }, 0) := by
      rw [grow, if_pos hd]
      exact if_pos hsize
    have hspec := compress_spec (r := []) (v := v) (s := .inlined v) hh hc hd.1 (List.cons_ne_nil c cs)
      (by rw [← hsize]; exact Nat.min_le_right _ _) (.inlined v) (fun k w => by simp)
    rw [hg]
    simpa only [List.append_nil, count_inlined] using hspec
  | case3 h c cs hd size hsize child m hchild ih =>
    have hg : grow h (c :: cs) v =
        ({ h with compr := true, data := (c :: cs).take size, kids := [child.toSlot] }, m + 1) := by
      rw [grow, if_pos hd]
      refine (if_neg hsize).trans ?_
      rw [hchild]
    obtain ⟨hs, hsets, hcount⟩ := ih hempty rfl fun d _ => List.not_mem_nil
    rw [hchild] at hs hsets hcount
    have hle : size ≤ raxNodeMaxSize := Nat.min_le_right _ _
    have hpos : 0 < size := by
      simp only [size, raxNodeMaxSize, List.length_cons]
      omega
    obtain ⟨h1, h2, h3⟩ := compress_spec (l := (c :: cs).take size) (s := child.toSlot) hh hc hd.1
      (List.ne_nil_of_length_pos (by simp; omega)) (by simp; omega) hs (mem_of_sets_empty hsets)
    rw [List.take_append_drop] at h2
    rw [hg]
    refine ⟨h1, h2, ?_⟩
    rw [h3, hcount]
    simp [RaxNode.empty, RaxNode.toSlot]
    omega
  | case4 h c cs hd hlast =>
    obtain ⟨rfl, hpos⟩ := hlast
    have hg : grow h [c] v = addChildNoAlloc h c (.inlined v) := by
      rw [grow, if_neg hd, if_pos ⟨rfl, hpos⟩]
    have hlen : h.kids.length = h.data.length := by
      have := hh.fits.slots
      simpa [labels, hc] using this
    have hno : c ∉ h.data := habs c rfl
    rw [hg]
    refine ⟨shape_addChild hh hc hno (.inlined v) (by simp) fun _ _ => hpos, ?_, ?_⟩
    · exact sets_inlined (fun w => not_mem_edge hc hno w) (mem_addChild hc hlen c _)
    · simp [count_addChild hlen]
  | case5 h c cs hd hlast child m hchild n m' hn ih =>
    have hg : grow h (c :: cs) v = (n, m + m' + 1) := by
      rw [grow, if_neg hd, if_neg hlast, hchild]
      simp only [hn]
    have hlen : h.kids.length = h.data.length := by
      have := hh.fits.slots
      simpa [labels, hc] using this
    have hno : c ∉ h.data := habs c rfl
    obtain ⟨hs, hsets, hcount⟩ := ih hempty rfl fun d _ => List.not_mem_nil
    rw [hchild] at hs hsets hcount
    have hadd := count_addChild (c := c) (s := child.toSlot) hlen
    have hshape := shape_addChild hh hc hno hs hsets.live fun w hw => by cases hw
    have hmem := mem_addChild hc hlen c child.toSlot
    rw [hn] at hadd hshape hmem
    rw [hg]
    refine ⟨hshape, ?_, ?_⟩
    · exact sets_edge (l := [c]) (fun k' w => not_mem_edge hc hno w) hsets hmem
    · rw [hadd, hcount]
      simp [RaxNode.empty, RaxNode.toSlot]
      omega

/-! ## Splits -/

/-- The node `n` holds its own key, and below the text `l` what `s` holds. -/
def Chain (key : Option V) (l : Bytes) (s n : Slot V) : Prop :=
  ∀ k w, (k, w) ∈ n.entries ↔ (k = [] ∧ key = some w) ∨ ∃ k', k = l ++ k' ∧ (k', w) ∈ s.entries

/-- A node with one slot, compressed as soon as its text is longer than a byte. -/
theorem chain_node (key : Option V) {l : Bytes} (hl : l ≠ []) {m : Nat} (hm : m = l.length) (s : Slot V) :
    Chain key l s (.child key (decide (1 < m)) l [s]) := by
  intro k w
  subst hm
  have hlabels : labels (decide (1 < l.length)) l = [l] := by
    rw [labels]
    split
    next => rfl
    next h =>
      obtain ⟨c, rfl⟩ : ∃ c, l = [c] := by
        apply List.length_eq_one_iff.mp
        have := List.length_pos_of_ne_nil hl
        simp only [decide_eq_true_eq] at h
        omega
      rfl
  simp [mem_child, hlabels]

theorem shape_chain (key : Option V) {l : Bytes} (hl : l ≠ []) (hsize : l.length ≤ raxNodeMaxSize) {m : Nat}
    (hm : m = l.length) {s : Slot V} (hs : Shape s) (hlive : s.entries ≠ []) :
    Shape (.child key (decide (1 < m)) l [s]) := by
  refine @shape_single V key _ _ _ hs hlive hl hsize fun h => ?_
  have := List.length_pos_of_ne_nil hl
  have hle : ¬1 < m := of_decide_eq_false h
  omega

theorem Chain.append {l₁ l₂ : Bytes} {key : Option V} {s mid n : Slot V} (h₁ : Chain key l₁ mid n)
    (h₂ : Chain none l₂ s mid) : Chain key (l₁ ++ l₂) s n := by
  intro k w
  rw [h₁ k w]
  refine or_congr_right ?_
  constructor
  · rintro ⟨k', rfl, hm⟩
    rcases (h₂ k' w).mp hm with ⟨-, h⟩ | ⟨k'', rfl, hm'⟩
    · cases h
    · exact ⟨k'', (List.append_assoc ..).symm, hm'⟩
  · rintro ⟨k', rfl, hm⟩
    exact ⟨l₂ ++ k', List.append_assoc .., (h₂ _ w).mpr (.inr ⟨k', rfl, hm⟩)⟩

theorem Chain.split {l₁ l₂ : Bytes} {key : Option V} {s mid n : Slot V} (h : Chain key (l₁ ++ l₂) s n)
    (h₂ : Chain none l₂ s mid) : Chain key l₁ mid n := by
  intro k w
  rw [h k w]
  refine or_congr_right ?_
  constructor
  · rintro ⟨k', rfl, hm⟩
    exact ⟨l₂ ++ k', List.append_assoc .., (h₂ _ w).mpr (.inr ⟨k', rfl, hm⟩)⟩
  · rintro ⟨k', rfl, hm⟩
    rcases (h₂ k' w).mp hm with ⟨-, h⟩ | ⟨k'', rfl, hm'⟩
    · cases h
    · exact ⟨k'', (List.append_assoc ..).symm, hm'⟩

/-- Setting a key below the text. -/
theorem Chain.sets {l r : Bytes} {key : Option V} {v : V} {s n n' : RaxNode V} {s' : RaxNode V} (hl : l ≠ [])
    (h : Chain key l s.toSlot n.toSlot) (h' : Chain key l s'.toSlot n'.toSlot) (hs : Sets r v s s') :
    Sets (l ++ r) v n n' := by
  intro k w
  rw [RaxNode.entries, h' k w]
  split
  next hk =>
    subst hk
    constructor
    · rintro (⟨hnil, -⟩ | ⟨k', hk', hm⟩)
      · exact absurd (List.append_eq_nil_iff.mp hnil).1 hl
      · rw [← List.append_cancel_left hk'] at hm
        simpa using (hs r w).mp hm
    · rintro rfl
      exact .inr ⟨r, rfl, (hs r w).mpr (by rw [if_pos rfl])⟩
  next hk =>
    rw [RaxNode.entries, h k w]
    refine or_congr_right (exists_congr fun k' => and_congr_right fun hk' => ?_)
    have := hs k' w
    rwa [if_neg (fun h => hk (by rw [hk', h]))] at this

/-- A compressed node of a well formed tree. -/
theorem Shape.compressed {h : RaxNode V} (hh : Shape h.toSlot) (hc : h.compr = true) :
    ∃ next, h.kids = [next] ∧ Shape next ∧ next.entries ≠ [] ∧ h.data ≠ [] ∧ h.data.length ≤ raxNodeMaxSize ∧
      Chain h.key h.data next h.toSlot := by
  have hlen := hh.fits.slots
  simp only [labels, hc, if_true, List.length_singleton] at hlen
  obtain ⟨next, hnext⟩ := List.length_eq_one_iff.mp hlen
  obtain ⟨hs, hlive⟩ := hh.kid (i := 0) (s := next) (by simp [hnext])
  refine ⟨next, hnext, hs, hlive, hh.fits.text hc, hh.fits.size hc, fun k w => ?_⟩
  have := mem_compressed h.key h.data next k w
  rw [RaxNode.toSlot, hc, hnext]
  exact this

theorem behindSlots_spec {h : RaxNode V} {next : Slot V} {j : Nat} (hkids : h.kids = [next]) (hs : Shape next)
    (hlive : next.entries ≠ []) (hsize : h.data.length ≤ raxNodeMaxSize) :
    ∃ s, (behindSlots h j).1 = [s] ∧ Shape s ∧ s.entries ≠ [] ∧ Chain none (h.data.drop (j + 1)) next s ∧
      s.count = next.count + (behindSlots h j).2 := by
  rw [behindSlots, hkids]
  by_cases hb : h.data.drop (j + 1) = []
  · refine ⟨next, by simp [hb], hs, hlive, fun k w => ?_, by simp [hb]⟩
    simp [hb]
  · have hchain := chain_node none hb rfl next
    refine ⟨_, by rw [if_neg hb], shape_chain none hb ?_ rfl hs hlive, ?_, hchain, ?_⟩
    · rw [List.length_drop]
      omega
    · obtain ⟨e, he⟩ := List.exists_mem_of_ne_nil _ hlive
      exact List.ne_nil_of_mem ((hchain _ e.2).mpr (.inr ⟨e.1, rfl, he⟩))
    · simp [hb, Nat.add_comm]

theorem splitApart_spec {h : RaxNode V} (hh : Shape h.toSlot) (hc : h.compr = true) {j : Nat} (hj : j < h.data.length)
    {c : UInt8} {cs : Bytes} (hapart : h.data[j]? ≠ some c) (v : V) :
    Shape (splitApart h j (c :: cs) v).1.toSlot ∧ Sets (h.data.take j ++ c :: cs) v h (splitApart h j (c :: cs) v).1 ∧
      (splitApart h j (c :: cs) v).1.toSlot.count = h.toSlot.count + (splitApart h j (c :: cs) v).2 := by
  obtain ⟨next, hkids, hs, hlive, -, hsize, hchain⟩ := hh.compressed hc
  obtain ⟨s, hslots, hs', hlive', hchain', hcount⟩ := behindSlots_spec (j := j) hkids hs hlive hsize
  have hone : (h.data.drop j).take 1 = [h.data[j]] := by
    rw [List.drop_eq_getElem_cons hj]
    rfl
  have hnode : splitNode h j = ⟨if j = 0 then h.key else none, false, [h.data[j]], [s]⟩ := by
    rw [splitNode, hone, hslots]
  -- the node that was split off, as it stands in front of the rest of the text
  have hsplit : ∀ key, Chain key [h.data[j]] s (.child key false [h.data[j]] [s]) := fun key =>
    chain_node key (List.cons_ne_nil _ _) rfl s
  have hshape : Shape (splitNode h j).toSlot := by
    rw [hnode]
    exact shape_chain (l := [h.data[j]]) _ (List.cons_ne_nil _ _) (by simp [raxNodeMaxSize]) rfl hs' hlive'
  obtain ⟨hg, hsets, hgcount⟩ := grow_spec (s := c :: cs) hshape rfl (fun d hd hmem => by
    rw [hnode, List.mem_singleton] at hmem
    rw [List.head?_cons, Option.some.injEq] at hd
    rw [List.getElem?_eq_getElem hj, hd, hmem] at hapart
    exact hapart rfl) v
  have hdata : h.data.take j ++ ([h.data[j]] ++ h.data.drop (j + 1)) = h.data := by
    rw [List.singleton_append, ← List.drop_eq_getElem_cons hj, List.take_append_drop]
  have hcnt : (splitNode h j).toSlot.count = h.toSlot.count + (behindSlots h j).2 := by
    simp [hnode, RaxNode.toSlot, hkids, hcount, Nat.add_assoc]
  rw [splitApart]
  generalize grow (splitNode h j) (c :: cs) v = g at hg hsets hgcount
  obtain ⟨split, m⟩ := g
  by_cases h0 : j = 0
  · subst h0
    refine ⟨hg, ?_, by simp only [if_true]; rw [hgcount, hcnt, Nat.add_assoc]⟩
    -- without a text in front both nodes hold the same
    have hsame : ∀ k w, (k, w) ∈ (splitNode h 0).entries ↔ (k, w) ∈ h.entries := by
      intro k w
      have h1 := ((hsplit h.key).append hchain') k w
      have h2 := hchain k w
      rw [List.take_zero, List.nil_append] at hdata
      rw [hdata] at h1
      rw [RaxNode.entries, hnode]
      exact h1.trans h2.symm
    intro k w
    rw [List.take_zero, List.nil_append, ← hsame]
    exact hsets k w
  · have htake : h.data.take j ≠ [] := by
      apply List.ne_nil_of_length_pos
      rw [List.length_take_of_le hj.le]
      omega
    have hlen : j = (h.data.take j).length := (List.length_take_of_le hj.le).symm
    have hfront : Chain h.key (h.data.take j) (splitNode h j).toSlot h.toSlot := by
      rw [← hdata] at hchain
      refine hchain.split ?_
      rw [hnode, if_neg h0]
      exact (hsplit none).append hchain'
    simp only [if_neg h0]
    refine ⟨?_, hfront.sets htake (chain_node h.key htake hlen _) hsets, ?_⟩
    · refine shape_chain h.key htake ?_ hlen hg hsets.live
      rw [← hlen]
      omega
    · simp only [RaxNode.toSlot, count_child, List.map_cons, List.map_nil, List.sum_cons, List.sum_nil] at hgcount hcnt ⊢
      omega

theorem splitInside_spec {h : RaxNode V} (hh : Shape h.toSlot) (hc : h.compr = true) {j : Nat} (hj : j < h.data.length)
    (h0 : j ≠ 0) (v : V) :
    Shape (splitInside h j v).toSlot ∧ Sets (h.data.take j) v h (splitInside h j v) ∧
      (splitInside h j v).toSlot.count = h.toSlot.count + 1 := by
  obtain ⟨next, hkids, hs, hlive, -, hsize, hchain⟩ := hh.compressed hc
  have htake : h.data.take j ≠ [] := by
    apply List.ne_nil_of_length_pos
    rw [List.length_take_of_le hj.le]
    omega
  have hlen : j = (h.data.take j).length := (List.length_take_of_le hj.le).symm
  have hdrop : h.data.drop j ≠ [] := by
    apply List.ne_nil_of_length_pos
    rw [List.length_drop]
    omega
  have hback : ∀ key, Chain key (h.data.drop j) next (.child key (decide (1 < h.data.length - j)) (h.data.drop j) [next]) :=
    fun key => chain_node key hdrop List.length_drop.symm next
  have hbackShape : Shape (.child (some v) (decide (1 < h.data.length - j)) (h.data.drop j) [next]) :=
    shape_chain _ hdrop (by rw [List.length_drop]; omega) List.length_drop.symm hs hlive
  -- the text behind the place, without the new key and with it
  let old : RaxNode V := ⟨none, decide (1 < h.data.length - j), h.data.drop j, [next]⟩
  have hold : Shape old.toSlot := shape_chain none hdrop (by rw [List.length_drop]; omega) List.length_drop.symm hs hlive
  have hset : Sets [] v old { old with key := some v } := sets_key hold.fits v
  have hfront : Chain h.key (h.data.take j) old.toSlot h.toSlot := by
    rw [← List.take_append_drop j h.data] at hchain
    exact hchain.split (hback none)
  have hnew : splitInside h j v = ⟨h.key, decide (1 < j), h.data.take j, [({ old with key := some v } : RaxNode V).toSlot]⟩ := by
    rw [splitInside, hkids]
    rfl
  rw [hnew]
  refine ⟨?_, ?_, ?_⟩
  · exact shape_chain h.key htake (by rw [← hlen]; omega) hlen hbackShape hset.live
  · have hfront' : Chain h.key (h.data.take j) ({ old with key := some v } : RaxNode V).toSlot
        (⟨h.key, decide (1 < j), h.data.take j, [({ old with key := some v } : RaxNode V).toSlot]⟩ : RaxNode V).toSlot :=
      chain_node h.key htake hlen _
    have hsets := hfront.sets htake hfront' hset
    rwa [List.append_nil] at hsets
  · simp [RaxNode.toSlot, hkids, old]
    omega

/-! ## The insertion -/

/-- A well formed tree whose nodes are counted. -/
structure Well (t : Rax V) : Prop where
  shape : Shape t.head.toSlot
  nodes : t.numnodes = t.head.toSlot.count

/-- What a change at the end of the path is for the tree. -/
theorem sets_at {head n n' : RaxNode V} {st : Stack V} {s r : Bytes} {v : V} {m : Nat} (hok : StackOk st)
    (hplug : plug st n = head) (hs : s = path st ++ r) (hn' : Shape n'.toSlot) (hsets : Sets r v n n')
    (hcount : n'.toSlot.count = n.toSlot.count + m) :
    Shape (plug st n').toSlot ∧ Sets s v head (plug st n') ∧ (plug st n').toSlot.count = head.toSlot.count + m := by
  refine ⟨shape_plug hok hn' fun _ => hsets.live, ?_, ?_⟩
  · rw [hs, ← hplug]
    exact hsets.plug hok
  · have := count_plug hok n n'
    rw [hplug] at this
    omega

/-- A child is replaced by one that holds the same. -/
theorem mem_setKid_congr {p : RaxNode V} {i : Nat} {s s' : Slot V} (hf : FrameOk p i)
    (hs : ∀ k w, (k, w) ∈ s.entries ↔ (k, w) ∈ s'.entries) (k : Bytes) (w : V) :
    (k, w) ∈ (p.setKid i s).entries ↔ (k, w) ∈ (p.setKid i s').entries := by
  obtain ⟨l, hl⟩ := hf.label
  rw [mem_setKid hf.here hl, mem_setKid hf.here hl]
  simp only [hs]

theorem Sets.of_same {r : Bytes} {v : V} {n m n' : RaxNode V} (h : Sets r v m n')
    (hsame : ∀ k w, (k, w) ∈ m.entries ↔ (k, w) ∈ n.entries) : Sets r v n n' := by
  intro k w
  rw [h k w, hsame]

theorem mem_valueNode (v : V) (k : Bytes) (w : V) : (k, w) ∈ (valueNode v).entries ↔ (k, w) ∈ (Slot.inlined v).entries := by
  rw [mem_bare rfl rfl]
  simp [valueNode, eq_comm]

/-- A value kept in a slot is overwritten there. -/
theorem sets_slot {p : RaxNode V} {i : Nat} {l : Bytes} {v : V} (hp : Shape p.toSlot) (hl : p.labels[i]? = some l)
    (hk : p.kids[i]? = some (.inlined v)) (data : V) : Sets l data p (p.setKid i (.inlined data)) := by
  have hf := hp.frame (List.getElem?_eq_some_iff.mp hk).1
  have hok : StackOk [(p, i)] := by
    intro f hm
    rw [List.mem_singleton.mp hm]
    exact hf
  have hnode := (sets_key (shape_bare (some v)).fits data).plug hok
  simp only [path, hl, Option.getD_some, List.append_nil, List.nil_append, plug] at hnode
  intro k w
  rw [mem_setKid_congr hf (fun k w => (mem_valueNode data k w).symm)]
  refine (hnode k w).trans ?_
  split
  next => rfl
  next =>
    refine (mem_setKid_congr hf (mem_valueNode v) k w).trans ?_
    rw [setKid_self hk]

theorem shape_slot {p : RaxNode V} {i : Nat} {v : V} (hp : Shape p.toSlot) (hk : p.kids[i]? = some (.inlined v)) (data : V) :
    Shape (p.setKid i (.inlined data)).toSlot := by
  have hi := (List.getElem?_eq_some_iff.mp hk).1
  refine (hp.frame hi).setKid (.inlined data) (by simp) fun _ _ => ?_
  cases hc : p.compr with
  | true =>
    have hlen := hp.fits.slots
    simp only [labels, hc, if_true, List.length_singleton] at hlen
    omega
  | false => exact hp.inline_lt hc hk

/-- An insertion returns what was held at the key, sets it if it was new or may be
    overwritten, and counts it. -/
theorem raxGenericInsert_spec {t : Rax V} (ht : Well t) (s : Bytes) (data : V) (overwrite : Bool) :
    Well (raxGenericInsert t s data overwrite).1 ∧
      (raxGenericInsert t s data overwrite).2 = ((raxFind t.head s).isNone, raxFind t.head s) ∧
      (raxGenericInsert t s data overwrite).1.numele = t.numele + (if (raxFind t.head s).isNone then 1 else 0) ∧
      if (raxFind t.head s).isNone || overwrite then Sets s data t.head (raxGenericInsert t s data overwrite).1.head
      else (raxGenericInsert t s data overwrite).1 = t := by
  obtain ⟨hok, hnode, hplug, hstop⟩ := lowWalk_spec (s := s) stackOk_nil ht.shape
  simp only [plug, path, List.nil_append] at hplug hstop
  have hfind : ∀ r v, s = path (lowWalk t.head s []).stack ++ r →
      (raxFind t.head s = some v ↔ (r, v) ∈ (lowWalk t.head s []).node.entries) := by
    intro r v hr
    rw [raxFind_eq_some ht.shape]
    have hbelow := mem_below hok (n := (lowWalk t.head s []).node) (r := r) (v := v)
    rwa [hplug, ← hr] at hbelow
  have hnone : ∀ r, s = path (lowWalk t.head s []).stack ++ r →
      (∀ v, (r, v) ∉ (lowWalk t.head s []).node.entries) → raxFind t.head s = none := by
    intro r hr hno
    cases hf : raxFind t.head s with
    | none => rfl
    | some v => exact absurd ((hfind r v hr).mp hf) (hno v)
  rw [raxGenericInsert]
  generalize lowWalk t.head s [] = w at hok hnode hplug hstop hfind hnone
  cases hstop with
  | @inlined j v l hat hl hk hs =>
    simp only [hat]
    by_cases hr : w.rest = []
    · have hfound : raxFind t.head s = some v := (hfind _ _ hs).mpr ((mem_slot hnode.fits hl hk).mpr (by simp [hr]))
      rw [if_pos hr, hfound]
      rw [hr, List.append_nil] at hs
      cases overwrite with
      | false => simp [ht]
      | true =>
        have hcount := count_setKid (s := .inlined data) hk
        simp only [count_inlined, Nat.add_zero] at hcount
        obtain ⟨h1, h2, h3⟩ := sets_at (m := 0) hok hplug hs (shape_slot hnode hk data) (sets_slot hnode hl hk data) hcount
        refine ⟨⟨h1, ?_⟩, rfl, rfl, by simpa using h2⟩
        simp only [if_true]
        rw [h3, ht.nodes, Nat.add_zero]
    · have hfound : raxFind t.head s = none := by
        refine hnone _ hs fun v' hm => ?_
        have := (mem_slot hnode.fits hl hk).mp hm
        simp only [entries_inlined, List.mem_singleton, Prod.mk.injEq] at this
        exact hr this.1
      rw [if_neg hr, hfound]
      -- the value becomes a node, which the rest of the key grows from
      have hj := (List.getElem?_eq_some_iff.mp hk).1
      have hok' : StackOk ((w.node, j) :: w.stack) := by
        intro f hm
        rcases List.mem_cons.mp hm with rfl | hm
        · exact hnode.frame hj
        · exact hok f hm
      obtain ⟨hg, hsets, hgcount⟩ := grow_spec (s := w.rest) (shape_bare (some v)) rfl (fun c _ => List.not_mem_nil) data
      obtain ⟨h1, h2, h3⟩ := sets_at hok' rfl (s := s) (by simp [path, hl, hs]) hg hsets hgcount
      have hsame : ∀ k u, (k, u) ∈ (plug ((w.node, j) :: w.stack) (valueNode v)).entries ↔ (k, u) ∈ t.head.entries := by
        intro k u
        rw [← hplug, plug, mem_plug hok, mem_plug hok]
        refine or_congr_left (exists_congr fun k' => and_congr_right fun _ => ?_)
        rw [mem_setKid_congr (hnode.frame hj) (mem_valueNode v), setKid_self hk]
      have hcount : (plug ((w.node, j) :: w.stack) (valueNode v)).toSlot.count = t.head.toSlot.count + 1 := by
        have hk' := count_setKid (s := (valueNode v).toSlot) hk
        have := count_plug hok w.node (w.node.setKid j (valueNode v).toSlot)
        rw [hplug] at this
        simp only [plug, valueNode, RaxNode.toSlot, count_child, count_inlined] at this hk' ⊢
        simp only [List.map_nil, List.sum_nil] at this hk' ⊢
        omega
      refine ⟨⟨h1, ?_⟩, rfl, rfl, ?_⟩
      · have hv : (⟨some v, false, [], []⟩ : RaxNode V) = valueNode v := rfl
        rw [hv] at h3
        rw [h3, hcount, ht.nodes]
      · exact h2.of_same hsame
  | found hat hsp hr hs =>
    simp only [hat]
    rw [if_pos ⟨hr, .inr hsp⟩]
    have hs' : s = path w.stack ++ [] := by rw [hs, List.append_nil]
    have hshape : Shape ({ w.node with key := some data } : RaxNode V).toSlot := by
      cases hnode with
      | child fits live small below => exact .child fits live small below
    obtain ⟨h1, h2, h3⟩ := sets_at (m := 0) hok hplug hs' hshape (sets_key hnode.fits data) (by simp [RaxNode.toSlot])
    have hwell : (plug w.stack { w.node with key := some data }).toSlot.count = t.numnodes := by
      rw [h3, ht.nodes, Nat.add_zero]
    cases hkey : w.node.key with
    | some v =>
      have hfound : raxFind t.head s = some v := (hfind _ _ hs').mpr ((mem_nil hnode.fits).mpr hkey)
      rw [hfound]
      cases overwrite with
      | false => simp [ht]
      | true => exact ⟨⟨h1, hwell.symm⟩, rfl, rfl, by simpa using h2⟩
    | none =>
      have hfound : raxFind t.head s = none := by
        refine hnone _ hs' fun v hm => ?_
        rw [(mem_nil hnode.fits).mp hm] at hkey
        cases hkey
      rw [hfound]
      exact ⟨⟨h1, hwell.symm⟩, rfl, rfl, by simpa using h2⟩
  | text hat hc hlt hap hin hs =>
    have hfound : raxFind t.head s = none := hnone _ hs fun v => not_mem_text hc hlt hap hin v
    simp only [hat, hfound]
    have hstop : ¬(w.rest = [] ∧ (w.node.compr = false ∨ w.splitpos = 0)) := by
      rintro ⟨hr, h | h⟩
      · rw [hc] at h
        cases h
      · exact hin hr h
    rw [if_neg hstop, if_pos hc]
    cases hr : w.rest with
    | nil =>
      rw [hr, List.append_nil] at hs
      obtain ⟨hg, hsets, hgcount⟩ := splitInside_spec hnode hc hlt (hin hr) data
      obtain ⟨h1, h2, h3⟩ := sets_at hok hplug hs hg hsets hgcount
      rw [if_neg fun h => h rfl]
      exact ⟨⟨h1, by rw [h3, ht.nodes]⟩, rfl, rfl, by simpa using h2⟩
    | cons c cs =>
      rw [hr] at hs hap
      obtain ⟨hg, hsets, hgcount⟩ := @splitApart_spec V _ hnode hc _ hlt c cs (hap c rfl) data
      obtain ⟨h1, h2, h3⟩ := sets_at hok hplug hs hg hsets hgcount
      rw [if_pos (List.cons_ne_nil _ _)]
      exact ⟨⟨h1, by rw [h3, ht.nodes]⟩, rfl, rfl, by simpa using h2⟩
  | edge hat hc hsp hr habs hs =>
    have hfound : raxFind t.head s = none := by
      refine hnone _ hs fun v => ?_
      rw [hr]
      exact not_mem_edge hc habs v
    simp only [hat, hfound]
    have hstop : ¬(w.rest = [] ∧ (w.node.compr = false ∨ w.splitpos = 0)) := by
      rw [hr]
      exact fun h => List.cons_ne_nil _ _ h.1
    rw [if_neg hstop, if_neg (by simp [hc])]
    obtain ⟨hg, hsets, hgcount⟩ := grow_spec (s := w.rest) hnode hc (fun d hd => by
      rw [hr, List.head?_cons, Option.some.injEq] at hd
      exact hd ▸ habs) data
    obtain ⟨h1, h2, h3⟩ := sets_at hok hplug hs hg hsets hgcount
    exact ⟨⟨h1, by rw [h3, ht.nodes]⟩, rfl, rfl, by simpa using h2⟩

end Ds4.Radix
