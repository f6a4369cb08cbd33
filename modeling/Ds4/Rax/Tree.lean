import Mathlib.Algebra.GroupWithZero.Nat
import Mathlib.Data.List.Basic
import Mathlib.Data.List.Infix
import Mathlib.Data.List.InsertIdx
import Mathlib.Data.List.Nodup
import Ds4.Bytes

/- The radix tree of rax.c: its nodes, the walk along a key, and what a tree holds.

   Correspondence (C ↔ Lean):
     a child pointer slot, `raxNode`   ↔ `Slot`, `RaxNode`
     `RAX_NODE_MAX_SIZE`               ↔ `raxNodeMaxSize`
     the stack of parents              ↔ `Stack`, a parent with the slot that was followed
     `raxLowWalk`, `raxFind`           ↔ `lowWalk`, `raxFind`
   `size` is the length of `data`, `iskey` and the value are one option, and a slot
   whose bit of `leafbitmap` is set is an `inlined` one. A node that is changed in
   place is put back where the stack says (`plug`). Allocation succeeds.

   What is proved: changing the node at the end of a path changes what is held
   below that path and nothing else (`mem_plug`, `Outside.not_prefix`), and a
   lookup finds exactly what the tree holds (`raxFind_eq_some`). -/
namespace Ds4.Radix

variable {V : Type}

/-- `RAX_NODE_MAX_SIZE` -/
def raxNodeMaxSize : Nat := 65535

inductive Slot (V : Type) where
  | inlined (value : V)
  | child (key : Option V) (compr : Bool) (data : Bytes) (kids : List (Slot V))

structure RaxNode (V : Type) where
  key : Option V
  compr : Bool
  data : Bytes
  kids : List (Slot V)

def RaxNode.toSlot (n : RaxNode V) : Slot V := .child n.key n.compr n.data n.kids

/-- `raxNewNode(0, 0)` -/
def RaxNode.empty : RaxNode V := ⟨none, false, [], []⟩

/-- What the slots of a node add to a key: the whole text of a compressed node, else one byte each. -/
def labels (compr : Bool) (data : Bytes) : List Bytes := if compr then [data] else data.map fun c => [c]

def RaxNode.labels (n : RaxNode V) : List Bytes := Radix.labels n.compr n.data

/-- A node with another child in one slot. -/
def RaxNode.setKid (n : RaxNode V) (i : Nat) (s : Slot V) : RaxNode V := { n with kids := n.kids.set i s }

/-! ## What a tree holds -/

def under (l : Bytes) (es : List (Bytes × V)) : List (Bytes × V) := es.map fun e => (l ++ e.1, e.2)

mutual
def Slot.entries : Slot V → List (Bytes × V)
  | .inlined v => [([], v)]
  | .child key compr data kids => key.toList.map (fun v => ([], v)) ++ Slot.entriesUnder (Radix.labels compr data) kids
def Slot.entriesUnder : List Bytes → List (Slot V) → List (Bytes × V)
  | l :: ls, s :: ss => under l s.entries ++ Slot.entriesUnder ls ss
  | _, _ => []
end

mutual
/-- The number of nodes: an inlined value is none. -/
def Slot.count : Slot V → Nat
  | .inlined _ => 0
  | .child _ _ _ kids => 1 + Slot.countAll kids
def Slot.countAll : List (Slot V) → Nat
  | [] => 0
  | s :: ss => s.count + Slot.countAll ss
end

theorem entriesUnder_eq (ls : List Bytes) (kids : List (Slot V)) :
    Slot.entriesUnder ls kids = (ls.zip kids).flatMap fun p => under p.1 p.2.entries := by
  induction kids generalizing ls with
  | nil => cases ls <;> simp [Slot.entriesUnder]
  | cons s ss ih =>
    cases ls with
    | nil => simp [Slot.entriesUnder]
    | cons l ls => simp [Slot.entriesUnder, ih]

theorem countAll_eq (kids : List (Slot V)) : Slot.countAll kids = (kids.map Slot.count).sum := by
  induction kids with
  | nil => rfl
  | cons s ss ih => simp [Slot.countAll, ih]

@[simp] theorem entries_inlined (v : V) : (Slot.inlined v).entries = [([], v)] := by rw [Slot.entries]

@[simp] theorem count_inlined (v : V) : (Slot.inlined v).count = 0 := by rw [Slot.count]

@[simp] theorem count_child (key : Option V) (compr : Bool) (data : Bytes) (kids : List (Slot V)) :
    (Slot.child key compr data kids).count = 1 + (kids.map Slot.count).sum := by
  rw [Slot.count, countAll_eq]

theorem mem_under {l k : Bytes} {v : V} {es : List (Bytes × V)} :
    (k, v) ∈ under l es ↔ ∃ k', k = l ++ k' ∧ (k', v) ∈ es := by
  simp only [under, List.mem_map, Prod.mk.injEq, Prod.exists]
  constructor
  · rintro ⟨k', w, hm, rfl, rfl⟩
    exact ⟨k', rfl, hm⟩
  · rintro ⟨k', rfl, hm⟩
    exact ⟨k', v, hm, rfl, rfl⟩

/-- What a node holds: its own key, and what hangs on its slots under their labels. -/
theorem mem_child {key : Option V} {compr : Bool} {data : Bytes} {kids : List (Slot V)} {k : Bytes} {v : V} :
    (k, v) ∈ (Slot.child key compr data kids).entries ↔
      (k = [] ∧ key = some v) ∨
        ∃ p ∈ (labels compr data).zip kids, ∃ k', k = p.1 ++ k' ∧ (k', v) ∈ p.2.entries := by
  rw [Slot.entries, entriesUnder_eq, List.mem_append, List.mem_flatMap]
  simp only [mem_under, List.mem_map, Option.mem_toList, Prod.mk.injEq]
  constructor
  · rintro (⟨w, hw, rfl, rfl⟩ | h)
    · exact .inl ⟨rfl, hw⟩
    · exact .inr h
  · rintro (⟨rfl, hw⟩ | h)
    · exact .inl ⟨v, hw, rfl, rfl⟩
    · exact .inr h

theorem mem_zip_iff {ls : List Bytes} {kids : List (Slot V)} {p : Bytes × Slot V} :
    p ∈ ls.zip kids ↔ ∃ i : Nat, ls[i]? = some p.1 ∧ kids[i]? = some p.2 := by
  simp only [List.mem_iff_getElem?, List.getElem?_zip_eq_some]

/-- The same by the place of the slot. -/
theorem mem_child_at {key : Option V} {compr : Bool} {data : Bytes} {kids : List (Slot V)} {k : Bytes} {v : V} :
    (k, v) ∈ (Slot.child key compr data kids).entries ↔
      (k = [] ∧ key = some v) ∨
        ∃ (i : Nat) (l : Bytes) (s : Slot V), (labels compr data)[i]? = some l ∧ kids[i]? = some s ∧
          ∃ k', k = l ++ k' ∧ (k', v) ∈ s.entries := by
  rw [mem_child]
  simp only [mem_zip_iff]
  constructor
  · rintro (h | ⟨p, ⟨i, hl, hs⟩, h⟩)
    · exact .inl h
    · exact .inr ⟨i, p.1, p.2, hl, hs, h⟩
  · rintro (h | ⟨i, l, s, hl, hs, h⟩)
    · exact .inl h
    · exact .inr ⟨(l, s), ⟨i, hl, hs⟩, h⟩

abbrev RaxNode.entries (n : RaxNode V) : List (Bytes × V) := n.toSlot.entries

/-! ## Well-formed trees -/

/-- A node's text and slots agree: one slot for a compressed text, else one for each edge, in order. -/
structure Fits (compr : Bool) (data : Bytes) (slots : Nat) : Prop where
  size : compr = true → data.length ≤ raxNodeMaxSize
  slots : slots = (labels compr data).length
  text : compr = true → data ≠ []
  edges : compr = false → data.Pairwise (· < ·)

/-- Every node fits, nothing hangs on a slot that holds no key, and `leafbitmap` has room for the inlined ones. -/
inductive Shape : Slot V → Prop where
  | inlined (v : V) : Shape (.inlined v)
  | child {key : Option V} {compr : Bool} {data : Bytes} {kids : List (Slot V)} (fits : Fits compr data kids.length)
      (live : ∀ s ∈ kids, s.entries ≠ []) (small : compr = false → ∀ i v, kids[i]? = some (.inlined v) → i < 13)
      (below : ∀ s ∈ kids, Shape s) : Shape (.child key compr data kids)

theorem labels_ne_nil {compr : Bool} {data : Bytes} {slots i : Nat} {l : Bytes} (h : Fits compr data slots)
    (hl : (labels compr data)[i]? = some l) : l ≠ [] := by
  cases compr with
  | true =>
    have hl' := List.mem_of_getElem? hl
    simp only [labels, if_true, List.mem_singleton] at hl'
    rw [hl']
    exact h.text rfl
  | false =>
    have hl' := List.mem_of_getElem? hl
    simp only [labels, Bool.false_eq_true, if_false, List.mem_map] at hl'
    obtain ⟨c, -, rfl⟩ := hl'
    exact List.cons_ne_nil _ _

/-- Different slots of a node never serve the same key. -/
theorem labels_apart {compr : Bool} {data : Bytes} {slots i j : Nat} {l l' : Bytes} (h : Fits compr data slots)
    (hi : (labels compr data)[i]? = some l) (hj : (labels compr data)[j]? = some l') (hne : j ≠ i) (k : Bytes) :
    ¬l <+: l' ++ k := by
  cases compr with
  | true =>
    have hi' := (List.getElem?_eq_some_iff.mp hi).1
    have hj' := (List.getElem?_eq_some_iff.mp hj).1
    simp only [labels, if_true, List.length_singleton] at hi' hj'
    omega
  | false =>
    simp only [labels, Bool.false_eq_true, if_false, List.getElem?_map, Option.map_eq_some_iff] at hi hj
    obtain ⟨c, hc, rfl⟩ := hi
    obtain ⟨d, hd, rfl⟩ := hj
    intro hpre
    have hcd : c = d := by
      obtain ⟨u, hu⟩ := hpre
      simpa using (List.cons.inj hu).1
    subst hcd
    have hnodup : data.Nodup := (h.edges rfl).imp fun hlt => UInt8.ne_of_lt hlt
    obtain ⟨hi', rfl⟩ := List.getElem?_eq_some_iff.mp hc
    obtain ⟨hj', hv⟩ := List.getElem?_eq_some_iff.mp hd
    exact hne (hnodup.getElem_inj_iff.mp hv)

/-! ## Paths -/

/-- The parents on the way to a node, the nearest first, each with the slot that was followed. -/
abbrev Stack (V : Type) := List (RaxNode V × Nat)

def path : Stack V → Bytes
  | [] => []
  | (p, i) :: st => path st ++ (p.labels[i]?).getD []

/-- The head of the tree with `n` put where the path ends. -/
def plug : Stack V → RaxNode V → RaxNode V
  | [], n => n
  | (p, i) :: st, n => plug st (p.setKid i n.toSlot)

/-- A parent is well formed but for the slot that was followed. -/
structure FrameOk (p : RaxNode V) (i : Nat) : Prop where
  fits : Fits p.compr p.data p.kids.length
  here : i < p.kids.length
  live : ∀ j s, j ≠ i → p.kids[j]? = some s → s.entries ≠ []
  small : p.compr = false → ∀ j v, j ≠ i → p.kids[j]? = some (.inlined v) → j < 13
  below : ∀ j s, j ≠ i → p.kids[j]? = some s → Shape s

def StackOk (st : Stack V) : Prop := ∀ f ∈ st, FrameOk f.1 f.2

/-- What a node holds apart from one of its slots. -/
def Beside (p : RaxNode V) (i : Nat) (k : Bytes) (v : V) : Prop :=
  (k = [] ∧ p.key = some v) ∨
    ∃ (j : Nat) (l : Bytes) (s : Slot V), j ≠ i ∧ p.labels[j]? = some l ∧ p.kids[j]? = some s ∧
      ∃ k', k = l ++ k' ∧ (k', v) ∈ s.entries

/-- What the tree holds apart from what is below the end of the path. -/
def Outside : Stack V → Bytes → V → Prop
  | [], _, _ => False
  | (p, i) :: st, k, v => Outside st k v ∨ ∃ k', k = path st ++ k' ∧ Beside p i k' v

theorem FrameOk.label {p : RaxNode V} {i : Nat} (h : FrameOk p i) : ∃ l, p.labels[i]? = some l := by
  have hi := h.here
  rw [h.fits.slots] at hi
  exact ⟨_, List.getElem?_eq_getElem hi⟩

theorem mem_setKid {p : RaxNode V} {i : Nat} {l : Bytes} (hi : i < p.kids.length) (hl : p.labels[i]? = some l)
    (s : Slot V) (k : Bytes) (v : V) :
    (k, v) ∈ (p.setKid i s).entries ↔ (∃ k', k = l ++ k' ∧ (k', v) ∈ s.entries) ∨ Beside p i k v := by
  rw [RaxNode.entries, RaxNode.toSlot, mem_child_at]
  constructor
  · rintro (h | ⟨j, l', s', hl', hs', h⟩)
    · exact .inr (.inl h)
    · rcases eq_or_ne j i with rfl | hne
      · obtain rfl : l = l' := Option.some.inj (hl.symm.trans hl')
        simp only [RaxNode.setKid, List.getElem?_set_self hi, Option.some.injEq] at hs'
        subst hs'
        exact .inl h
      · simp only [RaxNode.setKid, List.getElem?_set_ne (Ne.symm hne)] at hs'
        exact .inr (.inr ⟨j, l', s', hne, hl', hs', h⟩)
  · rintro (h | h | ⟨j, l', s', hne, hl', hs', h⟩)
    · exact .inr ⟨i, l, s, hl, by simp [RaxNode.setKid, hi], h⟩
    · exact .inl h
    · refine .inr ⟨j, l', s', hl', ?_, h⟩
      simp only [RaxNode.setKid, List.getElem?_set_ne (Ne.symm hne)]
      exact hs'

/-- The tree holds what is below the end of the path and what is outside. -/
theorem mem_plug {st : Stack V} (hok : StackOk st) (n : RaxNode V) (k : Bytes) (v : V) :
    (k, v) ∈ (plug st n).entries ↔ (∃ k', k = path st ++ k' ∧ (k', v) ∈ n.entries) ∨ Outside st k v := by
  induction st generalizing n with
  | nil => simp [plug, path, Outside]
  | cons f st ih =>
    obtain ⟨p, i⟩ := f
    have hf : FrameOk p i := hok (p, i) (List.mem_cons_self ..)
    obtain ⟨l, hl⟩ := hf.label
    rw [plug, ih fun g hg => hok g (List.mem_cons_of_mem _ hg)]
    simp only [path, Outside, hl, Option.getD_some]
    constructor
    · rintro (⟨k', rfl, hm⟩ | h)
      · rcases (mem_setKid hf.here hl _ _ _).mp hm with ⟨k'', rfl, hm'⟩ | hb
        · exact .inl ⟨k'', (List.append_assoc ..).symm, hm'⟩
        · exact .inr (.inr ⟨k', rfl, hb⟩)
      · exact .inr (.inl h)
    · rintro (⟨k', rfl, hm⟩ | h | ⟨k', rfl, hb⟩)
      · exact .inl ⟨l ++ k', List.append_assoc .., (mem_setKid hf.here hl _ _ _).mpr (.inl ⟨k', rfl, hm⟩)⟩
      · exact .inr h
      · exact .inl ⟨k', rfl, (mem_setKid hf.here hl _ _ _).mpr (.inr hb)⟩

/-- Nothing outside has a key below the end of the path. -/
theorem Outside.not_prefix {st : Stack V} (hok : StackOk st) {k : Bytes} {v : V} (h : Outside st k v) :
    ¬path st <+: k := by
  induction st generalizing k with
  | nil => exact h.elim
  | cons f st ih =>
    obtain ⟨p, i⟩ := f
    have hf : FrameOk p i := hok (p, i) (List.mem_cons_self ..)
    obtain ⟨l, hl⟩ := hf.label
    simp only [path, hl, Option.getD_some]
    rcases h with h | ⟨k', rfl, hb⟩
    · have hno := ih (fun g hg => hok g (List.mem_cons_of_mem _ hg)) h
      exact fun hpre => hno ((List.prefix_append _ _).trans hpre)
    · rw [List.prefix_append_right_inj]
      rcases hb with ⟨rfl, -⟩ | ⟨j, l', s, hne, hl', -, k'', rfl, -⟩
      · exact fun hpre => labels_ne_nil hf.fits hl (List.prefix_nil.mp hpre)
      · exact labels_apart hf.fits hl hl' hne k''

theorem stackOk_nil : StackOk ([] : Stack V) := by
  intro f hf
  cases hf

theorem StackOk.tail {p : RaxNode V} {i : Nat} {st : Stack V} (h : StackOk ((p, i) :: st)) : StackOk st :=
  fun f hf => h f (List.mem_cons_of_mem _ hf)

theorem StackOk.head {p : RaxNode V} {i : Nat} {st : Stack V} (h : StackOk ((p, i) :: st)) : FrameOk p i :=
  h (p, i) (List.mem_cons_self ..)

/-- A parent is well formed again with anything well formed in the slot. -/
theorem FrameOk.setKid {p : RaxNode V} {i : Nat} (h : FrameOk p i) {s : Slot V} (hs : Shape s) (hlive : s.entries ≠ [])
    (hsmall : ∀ v, s = .inlined v → i < 13) : Shape (p.setKid i s).toSlot := by
  have hsplit : ∀ j r, (p.kids.set i s)[j]? = some r → (j = i ∧ r = s) ∨ (j ≠ i ∧ p.kids[j]? = some r) := by
    intro j r hr
    rcases eq_or_ne j i with rfl | hne
    · rw [List.getElem?_set_self h.here, Option.some.injEq] at hr
      exact .inl ⟨rfl, hr.symm⟩
    · rw [List.getElem?_set_ne (Ne.symm hne)] at hr
      exact .inr ⟨hne, hr⟩
  refine .child ?_ ?_ ?_ ?_
  · simpa [RaxNode.setKid] using h.fits
  · intro r hr
    obtain ⟨j, hj⟩ := List.mem_iff_getElem?.mp hr
    rcases hsplit j r hj with ⟨-, rfl⟩ | ⟨hne, hj⟩
    · exact hlive
    · exact h.live j r hne hj
  · intro hc j v hj
    rcases hsplit j _ hj with ⟨rfl, hv⟩ | ⟨hne, hj⟩
    · exact hsmall v hv.symm
    · exact h.small hc j v hne hj
  · intro r hr
    obtain ⟨j, hj⟩ := List.mem_iff_getElem?.mp hr
    rcases hsplit j r hj with ⟨-, rfl⟩ | ⟨hne, hj⟩
    · exact hs
    · exact h.below j r hne hj

/-- A node of a well formed tree, seen from one of its slots. -/
theorem Shape.frame {n : RaxNode V} (h : Shape n.toSlot) {i : Nat} (hi : i < n.kids.length) : FrameOk n i := by
  cases h with
  | child fits live small below =>
    exact ⟨fits, hi, fun j s _ hs => live s (List.mem_of_getElem? hs), fun hc j v _ hs => small hc j v hs,
      fun j s _ hs => below s (List.mem_of_getElem? hs)⟩

theorem Shape.kid {n : RaxNode V} (h : Shape n.toSlot) {i : Nat} {s : Slot V} (hs : n.kids[i]? = some s) :
    Shape s ∧ s.entries ≠ [] := by
  cases h with
  | child fits live small below => exact ⟨below s (List.mem_of_getElem? hs), live s (List.mem_of_getElem? hs)⟩

theorem Shape.fits {n : RaxNode V} (h : Shape n.toSlot) : Fits n.compr n.data n.kids.length := by
  cases h with
  | child fits live small below => exact fits

theorem Shape.inline_lt {n : RaxNode V} (h : Shape n.toSlot) {i : Nat} {v : V} (hc : n.compr = false)
    (hs : n.kids[i]? = some (.inlined v)) : i < 13 := by
  cases h with
  | child fits live small below => exact small hc i v hs

/-- A tree with something well formed at the end of a path is well formed. -/
theorem shape_plug {st : Stack V} (hok : StackOk st) {n : RaxNode V} (hn : Shape n.toSlot)
    (hlive : st ≠ [] → n.entries ≠ []) : Shape (plug st n).toSlot := by
  induction st generalizing n with
  | nil => exact hn
  | cons f st ih =>
    obtain ⟨p, i⟩ := f
    have hne : n.entries ≠ [] := hlive (List.cons_ne_nil _ _)
    have hf := hok.head
    refine ih hok.tail (hf.setKid hn hne fun v hv => by cases hv) fun _ => ?_
    obtain ⟨l, hl⟩ := hf.label
    obtain ⟨e, he⟩ := List.exists_mem_of_ne_nil _ hne
    exact List.ne_nil_of_mem ((mem_setKid hf.here hl _ (l ++ e.1) e.2).mpr (.inl ⟨e.1, rfl, he⟩))

/-! ## The walk -/

/-- Where `raxLowWalk` stops: what is left of the key, the node, how far into its text,
    the slot of the inlined value it met, and the parents. -/
structure Walk (V : Type) where
  rest : Bytes
  node : RaxNode V
  splitpos : Nat
  inlineAt : Option (Nat × V)
  stack : Stack V

/-- How many bytes two texts share at the start. -/
def matchLen : Bytes → Bytes → Nat
  | a :: as, b :: bs => if a = b then matchLen as bs + 1 else 0
  | _, _ => 0

/-- The slot that is followed, and what is left of the key behind it. -/
def RaxNode.follow (h : RaxNode V) (s : Bytes) : Option (Nat × Bytes) :=
  match s with
  | [] => none
  | c :: cs =>
    if h.data = [] then none
    else if h.compr then
      if matchLen h.data (c :: cs) = h.data.length then some (0, (c :: cs).drop h.data.length) else none
    else (h.data.idxOf? c).map fun j => (j, cs)

theorem RaxNode.follow_lt {h : RaxNode V} {s rest : Bytes} {j : Nat} (hf : h.follow s = some (j, rest)) :
    rest.length < s.length := by
  cases s with
  | nil => cases hf
  | cons c cs =>
    rw [RaxNode.follow] at hf
    by_cases hd : h.data = []
    · rw [if_pos hd] at hf
      cases hf
    · have hpos : 0 < h.data.length := List.length_pos_of_ne_nil hd
      rw [if_neg hd] at hf
      split at hf
      · split at hf
        · cases hf
          simp only [List.length_drop, List.length_cons]
          omega
        · cases hf
      · simp only [Option.map_eq_some_iff, Prod.mk.injEq] at hf
        obtain ⟨_, -, -, rfl⟩ := hf
        simp

/-- `raxLowWalk` from the node `h` on. -/
def lowWalk (h : RaxNode V) (s : Bytes) (st : Stack V) : Walk V :=
  match _hf : h.follow s with
  | none =>
    -- A stop inside a compressed node tells how many of its bytes have been read.
    let j := if h.compr then matchLen h.data s else 0
    ⟨s.drop j, h, j, none, st⟩
  | some (j, rest) =>
    match h.kids[j]? with
    | some (.inlined v) => ⟨rest, h, 0, some (j, v), st⟩
    | some (.child key compr data kids) => lowWalk ⟨key, compr, data, kids⟩ rest ((h, j) :: st)
    | none => ⟨rest, h, 0, none, st⟩
termination_by s.length
decreasing_by exact RaxNode.follow_lt _hf

/-- `raxFind`, `none` for `raxNotFound`. -/
def raxFind (head : RaxNode V) (s : Bytes) : Option V :=
  let w := lowWalk head s []
  match w.inlineAt with
  | some (_, v) => if w.rest = [] then some v else none
  | none => if w.rest ≠ [] ∨ (w.node.compr ∧ w.splitpos ≠ 0) then none else w.node.key

theorem matchLen_le_left (a b : Bytes) : matchLen a b ≤ a.length := by
  induction a generalizing b with
  | nil => simp [matchLen]
  | cons x a ih =>
    cases b with
    | nil => simp [matchLen]
    | cons y b =>
      rw [matchLen]
      split
      · exact Nat.succ_le_succ (ih b)
      · exact Nat.zero_le _

theorem take_matchLen (a b : Bytes) : a.take (matchLen a b) ++ b.drop (matchLen a b) = b := by
  induction a generalizing b with
  | nil => simp [matchLen]
  | cons x a ih =>
    cases b with
    | nil => simp [matchLen]
    | cons y b =>
      rw [matchLen]
      split
      next h => simp [h, ih]
      next h => rfl

theorem matchLen_stop {a b : Bytes} {c : UInt8} (hc : (b.drop (matchLen a b)).head? = some c) :
    a[matchLen a b]? ≠ some c := by
  induction a generalizing b with
  | nil => simp
  | cons x a ih =>
    cases b with
    | nil => simp [matchLen] at hc
    | cons y b =>
      rw [matchLen] at hc ⊢
      split at hc
      next h =>
        rw [if_pos h, List.getElem?_cons_succ]
        exact ih hc
      next h =>
        rw [if_neg h, List.getElem?_cons_zero]
        simp only [List.drop_zero, List.head?_cons, Option.some.injEq] at hc
        exact fun hx => h ((Option.some.inj hx).trans hc.symm)

theorem RaxNode.follow_some {h : RaxNode V} {s rest : Bytes} {j : Nat} (hf : h.follow s = some (j, rest)) :
    ∃ l, h.labels[j]? = some l ∧ s = l ++ rest := by
  cases s with
  | nil => cases hf
  | cons c cs =>
    rw [RaxNode.follow] at hf
    split at hf
    · cases hf
    · split at hf
      next hc =>
        split at hf
        next hm =>
          cases hf
          refine ⟨h.data, by simp [RaxNode.labels, Radix.labels, hc], ?_⟩
          have := take_matchLen h.data (c :: cs)
          rw [hm, List.take_length] at this
          exact this.symm
        · cases hf
      next hc =>
        simp only [Option.map_eq_some_iff, Prod.mk.injEq] at hf
        obtain ⟨i, hi, rfl, rfl⟩ := hf
        refine ⟨[c], ?_, rfl⟩
        rw [List.idxOf?_eq_some_iff] at hi
        obtain ⟨hlt, hd, -⟩ := hi
        simp [RaxNode.labels, Radix.labels, hc, hlt, hd]

theorem RaxNode.follow_none {h : RaxNode V} {c : UInt8} {cs : Bytes} (hfit : Fits h.compr h.data h.kids.length)
    (hf : h.follow (c :: cs) = none) :
    (h.compr = true ∧ matchLen h.data (c :: cs) < h.data.length) ∨ (h.compr = false ∧ c ∉ h.data) := by
  rw [RaxNode.follow] at hf
  cases hc : h.compr with
  | true =>
    rw [if_neg (hfit.text hc), hc, if_pos rfl] at hf
    split at hf
    · cases hf
    next hm => exact .inl ⟨rfl, Nat.lt_of_le_of_ne (matchLen_le_left _ _) hm⟩
  | false =>
    refine .inr ⟨rfl, ?_⟩
    split at hf
    next hd => simp [hd]
    next hd => simpa [hc, List.idxOf?_eq_none_iff] using hf

/-- The places where the walk along a key ends. -/
inductive Stopped (w : Walk V) (key : Bytes) : Prop where
  | inlined {j : Nat} {v : V} {l : Bytes} (at_ : w.inlineAt = some (j, v)) (label : w.node.labels[j]? = some l)
      (kid : w.node.kids[j]? = some (.inlined v)) (key_eq : key = path w.stack ++ (l ++ w.rest))
  | found (at_ : w.inlineAt = none) (split : w.splitpos = 0) (rest : w.rest = []) (key_eq : key = path w.stack)
  | text (at_ : w.inlineAt = none) (compr : w.node.compr = true) (lt : w.splitpos < w.node.data.length)
      (apart : ∀ c, w.rest.head? = some c → w.node.data[w.splitpos]? ≠ some c) (inside : w.rest = [] → w.splitpos ≠ 0)
      (key_eq : key = path w.stack ++ (w.node.data.take w.splitpos ++ w.rest))
  | edge {c : UInt8} {cs : Bytes} (at_ : w.inlineAt = none) (compr : w.node.compr = false) (split : w.splitpos = 0)
      (rest : w.rest = c :: cs) (absent : c ∉ w.node.data) (key_eq : key = path w.stack ++ w.rest)

theorem setKid_self {n : RaxNode V} {i : Nat} {s : Slot V} (h : n.kids[i]? = some s) : n.setKid i s = n := by
  obtain ⟨hi, rfl⟩ := List.getElem?_eq_some_iff.mp h
  simp [RaxNode.setKid]

theorem lowWalk_spec {h : RaxNode V} {s : Bytes} {st : Stack V} (hst : StackOk st) (hh : Shape h.toSlot) :
    StackOk (lowWalk h s st).stack ∧ Shape (lowWalk h s st).node.toSlot ∧
      plug (lowWalk h s st).stack (lowWalk h s st).node = plug st h ∧ Stopped (lowWalk h s st) (path st ++ s) := by
  induction h, s, st using lowWalk.induct with
  | case1 h s st hf =>
    have hw : lowWalk h s st =
        ⟨s.drop (if h.compr then matchLen h.data s else 0), h, if h.compr then matchLen h.data s else 0, none, st⟩ := by
      rw [lowWalk]
      split
      next => rfl
      next h' => rw [hf] at h'; cases h'
    rw [hw]
    refine ⟨hst, hh, rfl, ?_⟩
    cases s with
    | nil =>
      have h0 : (if h.compr = true then matchLen h.data [] else 0) = 0 := by
        cases h.data <;> simp [matchLen]
      refine .found rfl h0 ?_ (List.append_nil _)
      simp
    | cons c cs =>
      rcases RaxNode.follow_none hh.fits hf with ⟨hc, hlt⟩ | ⟨hc, habs⟩
      · simp only [hc, if_true]
        refine .text rfl hc hlt (fun d hd => matchLen_stop hd) (fun hrest h0 => ?_) ?_
        · rw [show matchLen h.data (c :: cs) = 0 from h0] at hrest
          cases hrest
        · simp [take_matchLen]
      · simp only [hc, Bool.false_eq_true, if_false]
        exact .edge rfl hc rfl rfl habs rfl
  | case2 h s st j rest hf v hk =>
    have hw : lowWalk h s st = ⟨rest, h, 0, some (j, v), st⟩ := by
      rw [lowWalk]
      split
      next h' => rw [hf] at h'; cases h'
      next h' =>
        rw [hf] at h'
        cases h'
        rw [hk]
    obtain ⟨l, hl, rfl⟩ := RaxNode.follow_some hf
    rw [hw]
    exact ⟨hst, hh, rfl, .inlined rfl hl hk rfl⟩
  | case3 h s st j rest hf key compr data kids hk ih =>
    have hw : lowWalk h s st = lowWalk ⟨key, compr, data, kids⟩ rest ((h, j) :: st) := by
      rw [lowWalk]
      split
      next h' => rw [hf] at h'; cases h'
      next h' =>
        rw [hf] at h'
        cases h'
        rw [hk]
    obtain ⟨l, hl, rfl⟩ := RaxNode.follow_some hf
    have hj : j < h.kids.length := (List.getElem?_eq_some_iff.mp hk).1
    have hst' : StackOk ((h, j) :: st) := by
      intro f hf'
      rcases List.mem_cons.mp hf' with rfl | hf'
      · exact hh.frame hj
      · exact hst f hf'
    obtain ⟨h1, h2, h3, h4⟩ := ih hst' (hh.kid hk).1
    rw [hw]
    refine ⟨h1, h2, ?_, ?_⟩
    · rw [h3, plug]
      congr 1
      exact setKid_self hk
    · simpa [path, hl] using h4
  | case4 h s st j rest hf hk =>
    exfalso
    obtain ⟨l, hl, -⟩ := RaxNode.follow_some hf
    have hj := (List.getElem?_eq_some_iff.mp hl).1
    rw [RaxNode.labels, ← hh.fits.slots] at hj
    rw [List.getElem?_eq_none_iff] at hk
    omega

/-! ## What a walk tells -/

theorem mem_below {st : Stack V} (hok : StackOk st) {n : RaxNode V} {r : Bytes} {v : V} :
    (path st ++ r, v) ∈ (plug st n).entries ↔ (r, v) ∈ n.entries := by
  rw [mem_plug hok]
  constructor
  · rintro (⟨k', hk, hm⟩ | h)
    · rwa [List.append_cancel_left hk]
    · exact absurd (List.prefix_append _ _) (h.not_prefix hok)
  · exact fun hm => .inl ⟨r, rfl, hm⟩

theorem mem_nil {n : RaxNode V} (hfit : Fits n.compr n.data n.kids.length) {v : V} :
    ([], v) ∈ n.entries ↔ n.key = some v := by
  rw [RaxNode.entries, RaxNode.toSlot, mem_child_at]
  constructor
  · rintro (⟨-, h⟩ | ⟨i, l, s, hl, -, k', hk, -⟩)
    · exact h
    · exact absurd (List.append_eq_nil_iff.mp hk.symm).1 (labels_ne_nil hfit hl)
  · exact fun h => .inl ⟨rfl, h⟩

/-- Below a label a node holds what its slot holds. -/
theorem mem_slot {n : RaxNode V} (hfit : Fits n.compr n.data n.kids.length) {i : Nat} {l r : Bytes} {s : Slot V} {v : V}
    (hl : n.labels[i]? = some l) (hs : n.kids[i]? = some s) : (l ++ r, v) ∈ n.entries ↔ (r, v) ∈ s.entries := by
  rw [RaxNode.entries, RaxNode.toSlot, mem_child_at]
  constructor
  · rintro (⟨h, -⟩ | ⟨j, l', s', hl', hs', k', hk, hm⟩)
    · exact absurd (List.append_eq_nil_iff.mp h).1 (labels_ne_nil hfit hl)
    · rcases eq_or_ne j i with rfl | hne
      · obtain rfl : l = l' := Option.some.inj (hl.symm.trans hl')
        obtain rfl : s = s' := Option.some.inj (hs.symm.trans hs')
        rwa [List.append_cancel_left hk]
      · exact absurd ⟨r, hk⟩ (labels_apart hfit hl hl' hne k')
  · exact fun hm => .inr ⟨i, l, s, hl, hs, r, rfl, hm⟩

/-- Nothing is held at a place inside a compressed text. -/
theorem not_mem_text {n : RaxNode V} (hc : n.compr = true) {m : Nat} {rest : Bytes} (hlt : m < n.data.length)
    (hapart : ∀ c, rest.head? = some c → n.data[m]? ≠ some c) (hin : rest = [] → m ≠ 0) (v : V) :
    (n.data.take m ++ rest, v) ∉ n.entries := by
  rw [RaxNode.entries, RaxNode.toSlot, mem_child_at]
  rintro (⟨h, -⟩ | ⟨i, l, s, hl, -, k', hk, -⟩)
  · obtain ⟨htake, hrest⟩ := List.append_eq_nil_iff.mp h
    have hlen := congrArg List.length htake
    simp only [List.length_take, List.length_nil] at hlen
    have := hin hrest
    omega
  · have hmem := List.mem_of_getElem? hl
    simp only [labels, hc, if_true, List.mem_singleton] at hmem
    subst hmem
    -- the byte of the text behind the place is the one the key goes on with
    have hget := congrArg (fun x => x[m]?) hk
    simp only [List.getElem?_append_right (List.length_take_le m n.data), List.getElem?_append_left hlt] at hget
    rw [List.length_take_of_le hlt.le, Nat.sub_self, ← List.head?_eq_getElem?] at hget
    cases hr : rest.head? with
    | none =>
      rw [hr, List.getElem?_eq_getElem hlt] at hget
      cases hget
    | some c => exact hapart c hr (hget.symm.trans hr)

theorem not_mem_edge {n : RaxNode V} (hc : n.compr = false) {c : UInt8} {cs : Bytes} (habs : c ∉ n.data) (v : V) :
    (c :: cs, v) ∉ n.entries := by
  rw [RaxNode.entries, RaxNode.toSlot, mem_child_at]
  rintro (⟨h, -⟩ | ⟨i, l, s, hl, -, k', hk, -⟩)
  · cases h
  · have hmem := List.mem_of_getElem? hl
    simp only [labels, hc, Bool.false_eq_true, if_false, List.mem_map] at hmem
    obtain ⟨d, hd, rfl⟩ := hmem
    exact habs ((List.cons.inj hk).1 ▸ hd)

/-- A lookup finds what the tree holds. -/
theorem raxFind_eq_some {head : RaxNode V} (hh : Shape head.toSlot) {s : Bytes} {v : V} :
    raxFind head s = some v ↔ (s, v) ∈ head.entries := by
  obtain ⟨hok, hnode, hplug, hstop⟩ := lowWalk_spec (s := s) stackOk_nil hh
  simp only [plug, path, List.nil_append] at hplug hstop
  have hmem : ∀ r, s = path (lowWalk head s []).stack ++ r →
      ((s, v) ∈ head.entries ↔ (r, v) ∈ (lowWalk head s []).node.entries) := by
    intro r hr
    have hbelow := mem_below hok (n := (lowWalk head s []).node) (r := r) (v := v)
    rwa [hplug, ← hr] at hbelow
  rw [raxFind]
  rcases hstop with ⟨hat, hl, hk, hs⟩ | ⟨hat, hsp, hr, hs⟩ | ⟨hat, hc, hlt, hap, hin, hs⟩ | ⟨hat, hc, hsp, hr, habs, hs⟩
  · rw [hmem _ hs, mem_slot hnode.fits hl hk]
    simp only [hat, entries_inlined, List.mem_singleton, Prod.mk.injEq]
    split
    next h => simp [h, eq_comm]
    next h => simp [h]
  · rw [hmem [] (by simpa using hs), mem_nil hnode.fits]
    simp [hat, hsp, hr]
  · rw [hmem _ hs]
    simp only [hat]
    rw [if_pos]
    · simp only [reduceCtorEq, false_iff]
      exact not_mem_text hc hlt hap hin v
    · by_cases hr : (lowWalk head s []).rest = []
      · exact .inr ⟨hc, hin hr⟩
      · exact .inl hr
  · rw [hmem _ hs, hr]
    simp only [hat]
    rw [if_pos (.inl (List.cons_ne_nil _ _))]
    simp only [reduceCtorEq, false_iff]
    exact not_mem_edge hc habs v

end Ds4.Radix
