import Ds4.Rax.Insert

/- Removal from the radix tree of rax.c: the nodes that are given up, and the chain of
   nodes that is compressed into one afterwards.

   Correspondence (C ↔ Lean):
     `raxRemoveChildAtPtr`, `raxRemoveChild`   ↔ `removeChildAtPtr`, with the slot of the child
     `raxRemoveCleanup`                        ↔ `raxRemoveCleanup`
     the way up, the two scans of the recompression ↔ `climb`, `chainNodes`, `chainTake`
     `raxRemove`                               ↔ `raxRemove`
   The second scan has no limit where the first one has: what it writes past the end
   of the node allocated for it is `none` here.

   What is proved: while no key is longer than `RAX_NODE_MAX_SIZE`, a removal stays in
   bounds, takes its key out and keeps every other one (`raxRemove_spec`). -/
namespace Ds4.Radix

variable {V : Type}

/-! ## The removal -/

def removeChildAtPtr (p : RaxNode V) (i : Nat) : RaxNode V :=
  if p.compr then ⟨p.key, false, [], []⟩ else { p with data := p.data.eraseIdx i, kids := p.kids.eraseIdx i }

/-- A node of a chain: no key, and one child. -/
def linkOf (key : Option V) (compr : Bool) (data : Bytes) : Bool := key.isNone && (compr || decide (data.length = 1))

/-- The useless node `h` is freed, and with it the parents that only led to it. The result is
    the node that stays, its place, the number of nodes freed, and whether to compress. -/
def raxRemoveCleanup : RaxNode V → Stack V → RaxNode V × Stack V × Nat × Bool
  | h, [] => (h, [], 0, false)
  | _, (p, i) :: st =>
    if linkOf p.key p.compr p.data = false ∨ st = [] then
      let new := removeChildAtPtr p i
      (new, st, 1, decide (new.data.length = 1) && new.key.isNone)
    else
      let (n, st', m, compress) := raxRemoveCleanup p st
      (n, st', m + 1, compress)

/-- The upper end of the chain that `h` is in. -/
def climb : RaxNode V → Stack V → RaxNode V × Stack V
  | h, [] => (h, [])
  | h, (p, i) :: st => if linkOf p.key p.compr p.data then climb (p.setKid i h.toSlot) st else (h, (p, i) :: st)

/-- The first scan below a node: how many nodes join, and the size they make. -/
def chainNodes : List (Slot V) → Nat → Nat × Nat
  | [.child key compr data kids], size =>
    if linkOf key compr data then
      if raxNodeMaxSize < size + data.length then (0, size)
      else
        let (n, size') := chainNodes kids (size + data.length)
        (n + 1, size')
    else (0, size)
  | _, size => (0, size)

/-- The second scan: the text of the nodes that join, the slot at their end, and their number. -/
def chainTake : List (Slot V) → Bytes × List (Slot V) × Nat
  | [.child key compr data kids] =>
    if linkOf key compr data then
      let (text, last, m) := chainTake kids
      (data ++ text, last, m + 1)
    else ([], [.child key compr data kids], 0)
  | kids => ([], kids, 0)

/-- The recompression around `h`: the head, and the nodes allocated and freed. -/
def recompress (h : RaxNode V) (st : Stack V) : Option (RaxNode V × Nat × Nat) :=
  let (start, st) := climb h st
  let (n, size) := chainNodes start.kids start.data.length
  if n = 0 then some (plug st start, 0, 0)
  else
    let (text, last, m) := chainTake start.kids
    if size < (start.data ++ text).length then none
    else some (plug st ⟨none, true, start.data ++ text, last⟩, 1, m + 1)

/-- The end of `raxRemove`, where `m` nodes have been freed. -/
def removed (t : Rax V) (h : RaxNode V) (st : Stack V) (m : Nat) (compress : Bool) (old : V) :
    Option (Rax V × Bool × Option V) :=
  if compress then
    (recompress h st).map fun (head, new, freed) => (⟨head, t.numele - 1, t.numnodes - m + new - freed⟩, true, some old)
  else some (⟨plug st h, t.numele - 1, t.numnodes - m⟩, true, some old)

/-- `raxRemove`: the tree, whether there was the key, and its value. -/
def raxRemove (t : Rax V) (s : Bytes) : Option (Rax V × Bool × Option V) :=
  let w := lowWalk t.head s []
  match w.inlineAt with
  | some (j, v) =>
    if w.rest = [] then
      let h := removeChildAtPtr w.node j
      if h.data = [] ∧ h.key = none then
        let (h, st, m, compress) := raxRemoveCleanup h w.stack
        removed t h st m compress v
      else removed t h w.stack 0 (decide (h.data.length = 1) && h.key.isNone) v
    else some (t, false, none)
  | none =>
    if w.rest ≠ [] ∨ (w.node.compr ∧ w.splitpos ≠ 0) then some (t, false, none)
    else
      match w.node.key with
      | none => some (t, false, none)
      | some v =>
        let h := { w.node with key := none }
        if h.data = [] then
          let (h, st, m, compress) := raxRemoveCleanup h w.stack
          removed t h st m compress v
        else removed t h w.stack 0 (decide (h.data.length = 1)) v

/-! ## Taking a child away -/

/-- What a node holds beside a slot is what it holds outside of that slot's label. -/
theorem beside_iff {p : RaxNode V} (hfit : Fits p.compr p.data p.kids.length) {i : Nat} {l : Bytes}
    (hi : i < p.kids.length) (hl : p.labels[i]? = some l) (s : Slot V) (k : Bytes) (w : V) :
    Beside p i k w ↔ (k, w) ∈ (p.setKid i s).entries ∧ ¬l <+: k := by
  rw [mem_setKid hi hl]
  constructor
  · intro h
    refine ⟨.inr h, ?_⟩
    rcases h with ⟨rfl, -⟩ | ⟨j, l', s', hne, hl', -, k', rfl, -⟩
    · exact fun hpre => labels_ne_nil hfit hl (List.prefix_nil.mp hpre)
    · exact labels_apart hfit hl hl' hne k'
  · rintro ⟨⟨k', rfl, -⟩ | h, hno⟩
    · exact absurd (List.prefix_append _ _) hno
    · exact h

theorem mem_removeChild {p : RaxNode V} {i : Nat} (hf : FrameOk p i) (k : Bytes) (w : V) :
    (k, w) ∈ (removeChildAtPtr p i).entries ↔ Beside p i k w := by
  rw [removeChildAtPtr, Beside]
  cases hc : p.compr with
  | true =>
    rw [if_pos rfl, mem_bare rfl rfl]
    refine ⟨.inl, ?_⟩
    rintro (h | ⟨j, l, s, hne, hl, -⟩)
    · exact h
    · -- a compressed node has no other slot
      have hj := (List.getElem?_eq_some_iff.mp hl).1
      have hi := hf.here
      rw [hf.fits.slots] at hi
      simp only [RaxNode.labels, labels, hc, if_true, List.length_singleton] at hj hi
      omega
  | false =>
    rw [if_neg (Bool.false_ne_true), RaxNode.entries, RaxNode.toSlot, mem_child_at]
    refine or_congr_right ?_
    simp only [RaxNode.labels, labels, hc, Bool.false_eq_true, if_false, ← List.eraseIdx_map, List.getElem?_eraseIdx]
    constructor
    · rintro ⟨j, l, s, hl, hs, h⟩
      split at hl
      next hlt =>
        rw [if_pos hlt] at hs
        exact ⟨j, l, s, by omega, hl, hs, h⟩
      next hge =>
        rw [if_neg hge] at hs
        exact ⟨j + 1, l, s, by omega, hl, hs, h⟩
    · rintro ⟨j, l, s, hne, hl, hs, h⟩
      rcases Nat.lt_or_gt_of_ne hne with hlt | hgt
      · exact ⟨j, l, s, by rwa [if_pos hlt], by rwa [if_pos hlt], h⟩
      · refine ⟨j - 1, l, s, ?_, ?_, h⟩
        · rw [if_neg (by omega), Nat.sub_add_cancel (by omega)]
          exact hl
        · rw [if_neg (by omega), Nat.sub_add_cancel (by omega)]
          exact hs

theorem shape_removeChild {p : RaxNode V} {i : Nat} (hf : FrameOk p i) : Shape (removeChildAtPtr p i).toSlot := by
  rw [removeChildAtPtr]
  cases hc : p.compr with
  | true =>
    rw [if_pos rfl]
    exact shape_bare p.key
  | false =>
    have hlen : p.kids.length = p.data.length := by
      have := hf.fits.slots
      simpa [labels, hc] using this
    have hi := hf.here
    have hkid : ∀ j s, (p.kids.eraseIdx i)[j]? = some s → ∃ j', j' ≠ i ∧ j ≤ j' ∧ p.kids[j']? = some s := by
      intro j s hs
      rw [List.getElem?_eraseIdx] at hs
      split at hs
      next hlt => exact ⟨j, by omega, le_rfl, hs⟩
      next hge => exact ⟨j + 1, by omega, by omega, hs⟩
    rw [if_neg (Bool.false_ne_true)]
    refine .child ⟨fun h => ?_, ?_, fun h => ?_, fun _ => ?_⟩ ?_ ?_ ?_
    · cases h
    · simp [labels, List.length_eraseIdx, hlen]
    · cases h
    · exact (hf.fits.edges hc).sublist (List.eraseIdx_sublist ..)
    · intro s hs
      obtain ⟨j, hj⟩ := List.mem_iff_getElem?.mp hs
      obtain ⟨j', hne, -, hj'⟩ := hkid j s hj
      exact hf.live j' s hne hj'
    · intro _ j v hj
      obtain ⟨j', hne, hle, hj'⟩ := hkid j _ hj
      exact Nat.lt_of_le_of_lt hle (hf.small hc j' v hne hj')
    · intro s hs
      obtain ⟨j, hj⟩ := List.mem_iff_getElem?.mp hs
      obtain ⟨j', hne, -, hj'⟩ := hkid j s hj
      exact hf.below j' s hne hj'

theorem sum_eraseIdx_add {l : List Nat} {i : Nat} (h : i < l.length) : (l.eraseIdx i).sum + l[i] = l.sum := by
  induction l generalizing i with
  | nil => cases h
  | cons x xs ih =>
    cases i with
    | zero => simp [Nat.add_comm]
    | succ i =>
      have := ih (i := i) (by simpa using h)
      simp only [List.eraseIdx_cons_succ, List.sum_cons, List.getElem_cons_succ]
      omega

theorem count_removeChild {p : RaxNode V} {i : Nat} {s : Slot V} (hf : FrameOk p i) (hs : p.kids[i]? = some s) :
    (removeChildAtPtr p i).toSlot.count + s.count = p.toSlot.count := by
  obtain ⟨hi, rfl⟩ := List.getElem?_eq_some_iff.mp hs
  rw [removeChildAtPtr]
  cases hc : p.compr with
  | true =>
    have hlen := hf.fits.slots
    simp only [labels, hc, if_true, List.length_singleton] at hlen
    obtain ⟨next, hnext⟩ := List.length_eq_one_iff.mp hlen
    have h0 : i = 0 := by omega
    subst h0
    simp [RaxNode.toSlot, hnext]
  | false =>
    have := sum_eraseIdx_add (l := p.kids.map Slot.count) (i := i) (by simpa using hi)
    simp only [Bool.false_eq_true, if_false, RaxNode.toSlot, count_child, ← List.eraseIdx_map, List.getElem_map] at this ⊢
    omega

/-! ## Giving up useless nodes -/

/-- Two nodes hold the same. -/
def Same (n n' : RaxNode V) : Prop := ∀ k w, (k, w) ∈ n'.entries ↔ (k, w) ∈ n.entries

theorem Same.plug {st : Stack V} (hok : StackOk st) {n n' : RaxNode V} (h : Same n n') : Same (plug st n) (plug st n') := by
  intro k w
  rw [mem_plug hok, mem_plug hok]
  exact or_congr_left (exists_congr fun k' => and_congr_right fun _ => h k' w)

theorem Same.live {n n' : RaxNode V} (h : Same n n') (hn : n.entries ≠ []) : n'.entries ≠ [] := by
  obtain ⟨e, he⟩ := List.exists_mem_of_ne_nil _ hn
  exact List.ne_nil_of_mem ((h e.1 e.2).mpr he)

theorem linkOf_iff {key : Option V} {compr : Bool} {data : Bytes} :
    linkOf key compr data = true ↔ key = none ∧ (compr = true ∨ data.length = 1) := by
  simp [linkOf, Option.isNone_iff_eq_none]

/-- A node of a chain has one slot. -/
theorem link_slots {key : Option V} {compr : Bool} {data : Bytes} {m : Nat} (hfit : Fits compr data m)
    (h : linkOf key compr data = true) : m = 1 := by
  rw [hfit.slots]
  rcases linkOf_iff.mp h with ⟨-, rfl | h1⟩
  · rfl
  · cases compr with
    | true => rfl
    | false => simp [labels, h1]

/-- A node that is not one of a chain holds something beside any of its slots. -/
theorem beside_live {p : RaxNode V} {i : Nat} (hf : FrameOk p i) (h : linkOf p.key p.compr p.data = false) :
    ∃ k w, Beside p i k w := by
  cases hk : p.key with
  | some w => exact ⟨[], w, .inl ⟨rfl, hk⟩⟩
  | none =>
    have hnot : ¬(p.compr = true ∨ p.data.length = 1) := by
      intro hor
      rw [linkOf_iff.mpr ⟨hk, hor⟩] at h
      cases h
    rw [not_or, Bool.not_eq_true] at hnot
    have hlen : p.kids.length = p.data.length := by
      have := hf.fits.slots
      simpa [labels, hnot.1] using this
    have hi := hf.here
    -- there are two slots, so one of them is another
    obtain ⟨j, hj, hne⟩ : ∃ j, j < p.kids.length ∧ j ≠ i := by
      by_cases h0 : i = 0
      · exact ⟨1, by omega, by omega⟩
      · exact ⟨0, by omega, by omega⟩
    have hlab : j < p.labels.length := by
      rw [RaxNode.labels, ← hf.fits.slots]
      exact hj
    obtain ⟨e, he⟩ := List.exists_mem_of_ne_nil _ (hf.live j _ hne (List.getElem?_eq_getElem hj))
    exact ⟨_, e.2, .inr ⟨j, _, _, hne, List.getElem?_eq_getElem hlab, List.getElem?_eq_getElem hj, e.1, rfl, he⟩⟩

/-- What the cleanup leaves: the same keys without the useless nodes, each of which is counted. -/
theorem raxRemoveCleanup_spec {h : RaxNode V} {st : Stack V} (hok : StackOk st) (hdead : h.entries = [])
    (hone : st = [] → Shape h.toSlot ∧ h.toSlot.count = 1) :
    let r := raxRemoveCleanup h st
    StackOk r.2.1 ∧ Shape r.1.toSlot ∧ (r.2.1 ≠ [] → r.1.entries ≠ []) ∧ Same (plug st h) (plug r.2.1 r.1) ∧
      (plug r.2.1 r.1).toSlot.count + r.2.2.1 + h.toSlot.count = (plug st h).toSlot.count + 1 ∧
      (r.2.2.2 = true → r.1.key = none ∧ r.1.kids.length = 1) := by
  induction st generalizing h with
  | nil =>
    refine ⟨stackOk_nil, (hone rfl).1, fun h => absurd rfl h, fun _ _ => Iff.rfl, ?_, fun h => ?_⟩
    · simp [raxRemoveCleanup, plug, (hone rfl).2]
    · cases h
  | cons f st ih =>
    obtain ⟨p, i⟩ := f
    have hf := hok.head
    obtain ⟨s, hs⟩ : ∃ s, p.kids[i]? = some s := ⟨_, List.getElem?_eq_getElem hf.here⟩
    obtain ⟨l, hl⟩ := hf.label
    -- nothing hangs on the slot of a useless node
    have hsetKid : ∀ k w, (k, w) ∈ (p.setKid i h.toSlot).entries ↔ Beside p i k w := by
      intro k w
      rw [mem_setKid hf.here hl, show h.toSlot.entries = [] from hdead]
      simp
    have hkid := count_setKid (s := h.toSlot) hs
    rw [raxRemoveCleanup]
    by_cases hstop : linkOf p.key p.compr p.data = false ∨ st = []
    · rw [if_pos hstop]
      have hcount := count_removeChild hf hs
      have hplug := count_plug hok.tail (p.setKid i h.toSlot) (removeChildAtPtr p i)
      have hsame : Same (p.setKid i h.toSlot) (removeChildAtPtr p i) := by
        intro k w
        rw [mem_removeChild hf, hsetKid]
      refine ⟨hok.tail, shape_removeChild hf, fun hst => ?_, hsame.plug hok.tail, ?_, ?_⟩
      · obtain ⟨k, w, hb⟩ := beside_live hf (hstop.resolve_right hst)
        exact List.ne_nil_of_mem ((mem_removeChild hf k w).mpr hb)
      · simp only [plug]
        omega
      · intro hc
        simp only [Bool.and_eq_true, decide_eq_true_eq, Option.isNone_iff_eq_none] at hc
        have hfit := (shape_removeChild hf).fits.slots
        refine ⟨hc.2, ?_⟩
        rw [hfit]
        have hcompr : (removeChildAtPtr p i).compr = false := by
          rw [removeChildAtPtr]
          split
          · rfl
          next h => simpa using h
        simp [labels, hcompr, hc.1]
    · rw [if_neg hstop]
      rw [not_or, Bool.not_eq_false] at hstop
      obtain ⟨hlink, hst⟩ := hstop
      -- the parent only led to the node, so it is useless too
      have hkids : p.kids = [s] := by
        have hlen := link_slots hf.fits hlink
        obtain ⟨x, hx⟩ := List.length_eq_one_iff.mp hlen
        have hi := hf.here
        obtain rfl : i = 0 := by omega
        rw [hx, List.getElem?_cons_zero, Option.some.injEq] at hs
        rw [hx, hs]
      have hdead' : (p.setKid i h.toSlot).entries = [] := by
        apply List.eq_nil_iff_forall_not_mem.mpr
        rintro ⟨k, w⟩ hm
        rcases (hsetKid k w).mp hm with ⟨-, hkey⟩ | ⟨j, l', s', hne, -, hs', -⟩
        · rw [(linkOf_iff.mp hlink).1] at hkey
          cases hkey
        · have hj := (List.getElem?_eq_some_iff.mp hs').1
          have hi := hf.here
          rw [hkids, List.length_singleton] at hj hi
          omega
      have hindep : raxRemoveCleanup p st = raxRemoveCleanup (p.setKid i h.toSlot) st := by
        cases st with
        | nil => exact absurd rfl hst
        | cons g st => rfl
      have hcount : (p.setKid i h.toSlot).toSlot.count = h.toSlot.count + 1 := by
        simp only [RaxNode.toSlot, count_child, hkids, List.map_cons, List.map_nil, List.sum_cons, List.sum_nil] at hkid ⊢
        omega
      have hspec := ih hok.tail hdead' fun h => absurd h hst
      rw [hindep]
      generalize raxRemoveCleanup (p.setKid i h.toSlot) st = r at hspec
      obtain ⟨n, st', m, compress⟩ := r
      obtain ⟨h1, h2, h3, h4, h5, h6⟩ := hspec
      refine ⟨h1, h2, h3, h4, ?_, h6⟩
      simp only [plug] at h5 ⊢
      omega

/-! ## Compressing a chain -/

theorem link_of_slots {n : RaxNode V} (hfit : Fits n.compr n.data n.kids.length) (hkey : n.key = none)
    (hlen : n.kids.length = 1) : linkOf n.key n.compr n.data = true := by
  refine linkOf_iff.mpr ⟨hkey, ?_⟩
  have hslots := hfit.slots
  cases hc : n.compr with
  | true => exact .inl rfl
  | false =>
    right
    simpa [labels, hc, hlen, eq_comm] using hslots

theorem chain_link {key : Option V} {compr : Bool} {data : Bytes} (h : linkOf key compr data = true) (s : Slot V) :
    Chain none data s (.child key compr data [s]) := by
  obtain ⟨rfl, hone⟩ := linkOf_iff.mp h
  have hlabels : labels compr data = [data] := by
    rcases hone with rfl | h1
    · rfl
    · obtain ⟨c, rfl⟩ := List.length_eq_one_iff.mp h1
      cases compr <;> rfl
  intro k w
  simp [mem_child, hlabels]

/-- The slot at the end of a chain holds what the chain holds below its text, and within the
    limit of the first scan both scans see the same chain. -/
theorem chain_spec {s : Slot V} (hs : Shape s) (hlive : s.entries ≠ []) :
    ∃ text last m, chainTake [s] = (text, [last], m) ∧ Shape last ∧ last.entries ≠ [] ∧ Chain none text last s ∧
      s.count = last.count + m ∧
      ∀ size, size + text.length ≤ raxNodeMaxSize → chainNodes [s] size = (m, size + text.length) := by
  induction hs with
  | inlined v =>
    exact ⟨[], .inlined v, 0, by simp [chainTake], .inlined v, hlive, fun k w => by simp, rfl, fun size _ => by simp [chainNodes]⟩
  | @child key compr data kids fits live small below ih =>
    cases hlink : linkOf key compr data with
    | false =>
      refine ⟨[], _, 0, by simp [chainTake, hlink], .child fits live small below, hlive, fun k w => by simp, rfl, fun size _ => ?_⟩
      simp [chainNodes, hlink]
    | true =>
      obtain ⟨x, rfl⟩ := List.length_eq_one_iff.mp (link_slots fits hlink)
      have hx := List.mem_singleton_self x
      obtain ⟨text, last, m, htake, hlast, hlastLive, hchain, hcount, hnodes⟩ := ih x hx (live x hx)
      refine ⟨data ++ text, last, m + 1, ?_, hlast, hlastLive, (chain_link hlink x).append hchain, ?_, fun size hsize => ?_⟩
      · simp [chainTake, hlink, htake]
      · simp only [count_child, List.map_cons, List.map_nil, List.sum_cons, List.sum_nil]
        omega
      · rw [List.length_append] at hsize ⊢
        rw [chainNodes, if_pos hlink, if_neg (by omega), hnodes _ (by omega), Nat.add_assoc]

theorem climb_spec {h : RaxNode V} {st : Stack V} (hok : StackOk st) (hh : Shape h.toSlot) (hlive : h.entries ≠ [])
    (hlink : linkOf h.key h.compr h.data = true) :
    StackOk (climb h st).2 ∧ Shape (climb h st).1.toSlot ∧ plug (climb h st).2 (climb h st).1 = plug st h ∧
      linkOf (climb h st).1.key (climb h st).1.compr (climb h st).1.data = true := by
  induction st generalizing h with
  | nil => exact ⟨stackOk_nil, hh, rfl, hlink⟩
  | cons f st ih =>
    obtain ⟨p, i⟩ := f
    have hf := hok.head
    rw [climb]
    by_cases hp : linkOf p.key p.compr p.data = true
    · rw [if_pos hp]
      obtain ⟨l, hl⟩ := hf.label
      obtain ⟨e, he⟩ := List.exists_mem_of_ne_nil _ hlive
      refine ih hok.tail (hf.setKid hh hlive fun v hv => by cases hv) ?_ hp
      exact List.ne_nil_of_mem ((mem_setKid hf.here hl _ (l ++ e.1) e.2).mpr (.inl ⟨e.1, rfl, he⟩))
    · rw [if_neg hp]
      exact ⟨hok, hh, rfl, hlink⟩

/-- While the keys fit in a node, the recompression stays in bounds and keeps what is held. -/
theorem recompress_spec {h : RaxNode V} {st : Stack V} (hok : StackOk st) (hh : Shape h.toSlot) (hkey : h.key = none)
    (hlen : h.kids.length = 1) (hbound : ∀ k w, (k, w) ∈ (plug st h).entries → k.length ≤ raxNodeMaxSize) :
    ∃ head new freed, recompress h st = some (head, new, freed) ∧ Shape head.toSlot ∧ Same (plug st h) head ∧
      head.toSlot.count + freed = (plug st h).toSlot.count + new := by
  have hlive : h.entries ≠ [] := by
    obtain ⟨x, hx⟩ := List.length_eq_one_iff.mp hlen
    obtain ⟨-, hxlive⟩ := hh.kid (i := 0) (s := x) (by simp [hx])
    obtain ⟨e, he⟩ := List.exists_mem_of_ne_nil _ hxlive
    have hchain := chain_link (link_of_slots hh.fits hkey hlen) x (h.data ++ e.1) e.2
    rw [← hx] at hchain
    exact List.ne_nil_of_mem (hchain.mpr (.inr ⟨e.1, rfl, he⟩))
  obtain ⟨hok', hstart, hplug, hlink⟩ := climb_spec hok hh hlive (link_of_slots hh.fits hkey hlen)
  rw [recompress]
  generalize climb h st = r at hok' hstart hplug hlink
  obtain ⟨start, st'⟩ := r
  simp only at hok' hstart hplug hlink ⊢
  obtain ⟨x, hx⟩ := List.length_eq_one_iff.mp (link_slots hstart.fits hlink)
  obtain ⟨hxs, hxlive⟩ := hstart.kid (i := 0) (s := x) (by simp [hx])
  obtain ⟨text, last, m, htake, hlast, hlastLive, hchain, hcount, hnodes⟩ := chain_spec hxs hxlive
  have hall : Chain none (start.data ++ text) last start.toSlot := by
    rw [RaxNode.toSlot, hx]
    exact (chain_link hlink x).append hchain
  -- some key goes through all of the chain, so the chain is no longer than a key
  obtain ⟨e, he⟩ := List.exists_mem_of_ne_nil _ hlastLive
  have hkeyIn : (path st' ++ (start.data ++ text ++ e.1), e.2) ∈ (plug st h).entries := by
    rw [← hplug]
    exact (mem_below hok').mpr ((hall _ _).mpr (.inr ⟨e.1, rfl, he⟩))
  have hfit := hbound _ _ hkeyIn
  simp only [List.length_append] at hfit
  rw [hx, hnodes _ (by omega), htake]
  simp only
  by_cases hm : m = 0
  · rw [if_pos hm]
    refine ⟨_, _, _, rfl, ?_, ?_, ?_⟩
    · exact shape_plug hok' hstart fun _ => (List.ne_nil_of_mem ((hall _ _).mpr (.inr ⟨e.1, rfl, he⟩)))
    · rw [hplug]
      exact fun _ _ => Iff.rfl
    · rw [hplug]
  · rw [if_neg hm, if_neg (by rw [List.length_append]; omega)]
    have hdata : start.data ++ text ≠ [] := by
      intro hnil
      have := (List.append_eq_nil_iff.mp hnil).1
      rcases (linkOf_iff.mp hlink).2 with hc | h1
      · exact hstart.fits.text hc this
      · rw [this] at h1
        cases h1
    have hsame : Same start ⟨none, true, start.data ++ text, [last]⟩ := by
      intro k w
      rw [mem_compressed]
      exact (hall k w).symm
    refine ⟨_, _, _, rfl, ?_, ?_, ?_⟩
    · refine shape_plug hok' (shape_single hlast hlastLive hdata (by rw [List.length_append]; omega) fun h => by cases h) ?_
      intro _
      exact hsame.live (List.ne_nil_of_mem ((hall _ _).mpr (.inr ⟨e.1, rfl, he⟩)))
    · rw [← hplug]
      exact hsame.plug hok'
    · have hcnt := count_plug hok' start ⟨none, true, start.data ++ text, [last]⟩
      rw [hplug] at hcnt
      simp only [RaxNode.toSlot, count_child, hx, List.map_cons, List.map_nil, List.sum_cons, List.sum_nil] at hcnt ⊢
      omega

/-! ## What a removal leaves -/

theorem removed_spec {t : Rax V} {h : RaxNode V} {st : Stack V} {m : Nat} {compress : Bool} (old : V) (hok : StackOk st)
    (hh : Shape h.toSlot) (hlive : st ≠ [] → h.entries ≠ []) (hcompress : compress = true → h.key = none ∧ h.kids.length = 1)
    (hbound : ∀ k w, (k, w) ∈ (plug st h).entries → k.length ≤ raxNodeMaxSize)
    (hnodes : (plug st h).toSlot.count + m = t.numnodes) :
    ∃ t', removed t h st m compress old = some (t', true, some old) ∧ Well t' ∧ Same (plug st h) t'.head ∧
      t'.numele = t.numele - 1 := by
  rw [removed]
  cases compress with
  | false => exact ⟨_, rfl, ⟨shape_plug hok hh hlive, by simp only; omega⟩, fun _ _ => Iff.rfl, rfl⟩
  | true =>
    obtain ⟨head, new, freed, hre, hshape, hsame, hcount⟩ :=
      recompress_spec hok hh (hcompress rfl).1 (hcompress rfl).2 hbound
    rw [if_pos rfl, hre]
    exact ⟨_, rfl, ⟨hshape, by simp only; omega⟩, hsame, rfl⟩

/-- `n'` holds nothing at `r`, and elsewhere what `n` holds. -/
def Drops (r : Bytes) (n n' : RaxNode V) : Prop := ∀ k w, (k, w) ∈ n'.entries ↔ k ≠ r ∧ (k, w) ∈ n.entries

theorem Drops.plug {st : Stack V} (hok : StackOk st) {r : Bytes} {n n' : RaxNode V} (h : Drops r n n') :
    Drops (path st ++ r) (plug st n) (plug st n') := by
  intro k w
  rw [mem_plug hok, mem_plug hok]
  constructor
  · rintro (⟨k', rfl, hm⟩ | hout)
    · obtain ⟨hne, hm⟩ := (h k' w).mp hm
      exact ⟨fun hk => hne (List.append_cancel_left hk), .inl ⟨k', rfl, hm⟩⟩
    · exact ⟨fun hk => hout.not_prefix hok (hk ▸ List.prefix_append _ _), .inr hout⟩
  · rintro ⟨hne, ⟨k', rfl, hm⟩ | hout⟩
    · exact .inl ⟨k', rfl, (h k' w).mpr ⟨fun hk => hne (by rw [hk]), hm⟩⟩
    · exact .inr hout

theorem Drops.same {r : Bytes} {n m n' : RaxNode V} (h : Drops r n m) (hs : Same m n') : Drops r n n' :=
  fun k w => (hs k w).trans (h k w)

/-- Taking away an inlined value. -/
theorem drops_slot {p : RaxNode V} {i : Nat} {l : Bytes} {v : V} (hp : Shape p.toSlot) (hl : p.labels[i]? = some l)
    (hk : p.kids[i]? = some (.inlined v)) : Drops l p (removeChildAtPtr p i) := by
  have hi := (List.getElem?_eq_some_iff.mp hk).1
  intro k w
  rw [mem_removeChild (hp.frame hi), beside_iff hp.fits hi hl (.inlined v), setKid_self hk, and_comm]
  refine and_congr_left fun hm => ?_
  constructor
  · rintro hno rfl
    exact hno (List.prefix_refl _)
  · rintro hne ⟨r, rfl⟩
    have := (mem_slot hp.fits hl hk).mp hm
    simp only [entries_inlined, List.mem_singleton, Prod.mk.injEq] at this
    exact hne (by rw [this.1, List.append_nil])

theorem drops_key {n : RaxNode V} (hfit : Fits n.compr n.data n.kids.length) : Drops [] n { n with key := none } := by
  intro k w
  by_cases hk : k = []
  · subst hk
    rw [mem_nil (n := { n with key := none }) hfit]
    simp
  · rw [mem_withKey hk]
    simp [hk]

/-- What is left of a removal, with or without a node that has become useless. -/
theorem finish_spec {t : Rax V} (ht : Well t) (hbound : ∀ k w, (k, w) ∈ t.head.entries → k.length ≤ raxNodeMaxSize)
    {n h : RaxNode V} {st : Stack V} {s r : Bytes} (old : V) (hok : StackOk st) (hplug : plug st n = t.head)
    (hs : s = path st ++ r) (hh : Shape h.toSlot) (hdrops : Drops r n h) (hcount : h.toSlot.count = n.toSlot.count)
    (hlive : h.data ≠ [] ∨ h.key ≠ none → h.entries ≠ []) :
    (h.data = [] ∧ h.key = none →
      let c := raxRemoveCleanup h st
      ∃ t', removed t c.1 c.2.1 c.2.2.1 c.2.2.2 old = some (t', true, some old) ∧ Well t' ∧ Drops s t.head t'.head ∧
        t'.numele = t.numele - 1) ∧
    (¬(h.data = [] ∧ h.key = none) → ∀ compress, (compress = true → h.key = none ∧ h.kids.length = 1) →
      ∃ t', removed t h st 0 compress old = some (t', true, some old) ∧ Well t' ∧ Drops s t.head t'.head ∧
        t'.numele = t.numele - 1) := by
  have hdropsAll : Drops s t.head (plug st h) := by
    rw [hs, ← hplug]
    exact hdrops.plug hok
  have hboundAll : ∀ k w, (k, w) ∈ (plug st h).entries → k.length ≤ raxNodeMaxSize := fun k w hm =>
    hbound k w ((hdropsAll k w).mp hm).2
  have hnodes := count_plug hok n h
  rw [hplug] at hnodes
  have hn := ht.nodes
  constructor
  · rintro ⟨hd, hk⟩
    have hcompr : h.compr = false := by
      cases hc : h.compr with
      | true => exact absurd hd (hh.fits.text hc)
      | false => rfl
    have hdead : h.entries = [] := by
      apply List.eq_nil_iff_forall_not_mem.mpr
      rintro ⟨k, w⟩ hm
      have := ((mem_bare hcompr hd k w).mp hm).2
      rw [hk] at this
      cases this
    have hone : h.toSlot.count = 1 := by
      simp [RaxNode.toSlot, kids_of_bare hh hcompr hd]
    have hspec := raxRemoveCleanup_spec hok hdead fun _ => ⟨hh, hone⟩
    generalize raxRemoveCleanup h st = c at hspec
    obtain ⟨h', st', m, compress⟩ := c
    obtain ⟨hok', hh', hlive', hsame, hcnt, hcompress⟩ := hspec
    simp only at hok' hh' hlive' hsame hcnt hcompress ⊢
    obtain ⟨t', hrem, hwell, hsame', hele⟩ := removed_spec (t := t) (m := m) old hok' hh' hlive' hcompress
      (fun k w hm => hboundAll k w ((hsame k w).mp hm)) (by omega)
    exact ⟨t', hrem, hwell, (hdropsAll.same hsame).same hsame', hele⟩
  · intro hnot compress hcompress
    have hlive' : h.entries ≠ [] := by
      apply hlive
      by_cases hd : h.data = []
      · exact .inr fun hk => hnot ⟨hd, hk⟩
      · exact .inl hd
    obtain ⟨t', hrem, hwell, hsame', hele⟩ := removed_spec (t := t) (m := 0) old hok hh (fun _ => hlive') hcompress hboundAll (by omega)
    exact ⟨t', hrem, hwell, hdropsAll.same hsame', hele⟩

theorem live_of_data {n : RaxNode V} (hn : Shape n.toSlot) (h : n.data ≠ [] ∨ n.key ≠ none) : n.entries ≠ [] := by
  rcases h with hd | hk
  · have hlab : 0 < n.kids.length := by
      rw [hn.fits.slots, labels]
      split
      · exact Nat.one_pos
      · rw [List.length_map]
        exact List.length_pos_of_ne_nil hd
    obtain ⟨l, hl⟩ := (hn.frame hlab).label
    obtain ⟨e, he⟩ := List.exists_mem_of_ne_nil _ (hn.kid (List.getElem?_eq_getElem hlab)).2
    exact List.ne_nil_of_mem ((mem_slot hn.fits hl (List.getElem?_eq_getElem hlab)).mpr he)
  · obtain ⟨v, hv⟩ := Option.ne_none_iff_exists'.mp hk
    exact List.ne_nil_of_mem ((mem_nil hn.fits).mpr hv)

/-- While no key is longer than a node can hold, a removal returns what was held at the key,
    takes it out, and counts it. -/
theorem raxRemove_spec {t : Rax V} (ht : Well t) (hbound : ∀ k w, (k, w) ∈ t.head.entries → k.length ≤ raxNodeMaxSize)
    (s : Bytes) :
    ∃ t', raxRemove t s = some (t', (raxFind t.head s).isSome, raxFind t.head s) ∧ Well t' ∧ Drops s t.head t'.head ∧
      t'.numele = t.numele - (if (raxFind t.head s).isSome then 1 else 0) := by
  obtain ⟨hok, hnode, hplug, hstop⟩ := lowWalk_spec (s := s) stackOk_nil ht.shape
  simp only [plug, path, List.nil_append] at hplug hstop
  have hfind : ∀ r v, s = path (lowWalk t.head s []).stack ++ r →
      (raxFind t.head s = some v ↔ (r, v) ∈ (lowWalk t.head s []).node.entries) := by
    intro r v hr
    rw [raxFind_eq_some ht.shape]
    have hbelow := mem_below hok (n := (lowWalk t.head s []).node) (r := r) (v := v)
    rwa [hplug, ← hr] at hbelow
  have habsent : (∀ v, raxFind t.head s ≠ some v) → raxFind t.head s = none ∧ Drops s t.head t.head := by
    intro h
    refine ⟨Option.eq_none_iff_forall_ne_some.mpr h, fun k w => ⟨fun hm => ⟨?_, hm⟩, And.right⟩⟩
    rintro rfl
    exact h w ((raxFind_eq_some ht.shape).mpr hm)
  rw [raxRemove]
  generalize lowWalk t.head s [] = w at hok hnode hplug hstop hfind
  cases hstop with
  | @inlined j v l hat hl hk hs =>
    simp only [hat]
    by_cases hr : w.rest = []
    · have hfound : raxFind t.head s = some v := (hfind _ _ hs).mpr ((mem_slot hnode.fits hl hk).mpr (by simp [hr]))
      rw [hr, List.append_nil] at hs
      have hj := (List.getElem?_eq_some_iff.mp hk).1
      have hshape := shape_removeChild (hnode.frame hj)
      have hcount := count_removeChild (hnode.frame hj) hk
      rw [count_inlined, Nat.add_zero] at hcount
      obtain ⟨huseless, hkept⟩ := finish_spec ht hbound v hok hplug hs hshape (drops_slot hnode hl hk) hcount (live_of_data hshape)
      rw [if_pos hr, hfound]
      by_cases hd : (removeChildAtPtr w.node j).data = [] ∧ (removeChildAtPtr w.node j).key = none
      · rw [if_pos hd]
        exact huseless hd
      · rw [if_neg hd]
        refine hkept hd _ fun hc => ?_
        simp only [Bool.and_eq_true, decide_eq_true_eq, Option.isNone_iff_eq_none] at hc
        refine ⟨hc.2, ?_⟩
        have hcompr : (removeChildAtPtr w.node j).compr = false := by
          rw [removeChildAtPtr]
          split
          · rfl
          next h => simpa using h
        rw [hshape.fits.slots]
        simp [labels, hcompr, hc.1]
    · have hno : ∀ v', raxFind t.head s ≠ some v' := by
        intro v' hv'
        have := (mem_slot hnode.fits hl hk).mp ((hfind _ _ hs).mp hv')
        simp only [entries_inlined, List.mem_singleton, Prod.mk.injEq] at this
        exact hr this.1
      obtain ⟨hnone, hdrops⟩ := habsent hno
      rw [if_neg hr, hnone]
      exact ⟨t, rfl, ht, hdrops, rfl⟩
  | found hat hsp hr hs =>
    have hs' : s = path w.stack ++ [] := by rw [hs, List.append_nil]
    simp only [hat]
    rw [if_neg (by simp [hr, hsp])]
    cases hkey : w.node.key with
    | none =>
      obtain ⟨hnone, hdrops⟩ := habsent fun v hv => by
        rw [(mem_nil hnode.fits).mp ((hfind _ _ hs').mp hv)] at hkey
        cases hkey
      rw [hnone]
      exact ⟨t, rfl, ht, hdrops, rfl⟩
    | some v =>
      have hfound : raxFind t.head s = some v := (hfind _ _ hs').mpr ((mem_nil hnode.fits).mpr hkey)
      have hshape : Shape ({ w.node with key := none } : RaxNode V).toSlot := by
        cases hnode with
        | child fits live small below => exact .child fits live small below
      obtain ⟨huseless, hkept⟩ := finish_spec ht hbound v hok hplug hs' hshape (drops_key hnode.fits)
        (by simp [RaxNode.toSlot]) (live_of_data hshape)
      rw [hfound]
      by_cases hd : w.node.data = []
      · simp only [if_pos hd]
        exact huseless ⟨hd, rfl⟩
      · simp only [if_neg hd]
        refine hkept (fun h => hd h.1) _ fun hc => ⟨rfl, ?_⟩
        simp only [decide_eq_true_eq] at hc
        rw [hnode.fits.slots, labels]
        split
        · rfl
        · rw [List.length_map, hc]
  | text hat hc hlt hap hin hs =>
    obtain ⟨hnone, hdrops⟩ := habsent fun v hv => not_mem_text hc hlt hap hin v ((hfind _ _ hs).mp hv)
    simp only [hat]
    rw [if_pos, hnone]
    · exact ⟨t, rfl, ht, hdrops, rfl⟩
    · by_cases hr : w.rest = []
      · exact .inr ⟨hc, hin hr⟩
      · exact .inl hr
  | edge hat hc hsp hr habs hs =>
    obtain ⟨hnone, hdrops⟩ := habsent fun v hv => by
      have := (hfind _ _ hs).mp hv
      rw [hr] at this
      exact not_mem_edge hc habs v this
    simp only [hat]
    rw [if_pos (.inl (by rw [hr]; exact List.cons_ne_nil _ _)), hnone]
    exact ⟨t, rfl, ht, hdrops, rfl⟩

end Ds4.Radix
