import Ds4.Recency
import Ds4.Server.ToolMemory

/- What the four structures of the tool memory have to say to one another, and
   that each of its functions keeps it.

   `Consistent` is the representation invariant. `contents` is what the memory
   holds, as (id, DSML) pairs in the order of the list, and each function is one
   operation on it: a touch or a put promotes, a removal filters, a prune leaves
   a prefix. -/
namespace Ds4.Server
open Ds4

section
variable {α β : Type*} [DecidableEq α] {m : AList fun _ : α => β}

theorem lookup_insert_if (a : α) (b : β) (x : α) : (m.insert a b).lookup x = if x = a then some b else m.lookup x := by
  by_cases h : x = a
  · subst h
    rw [AList.lookup_insert, if_pos rfl]
  · rw [AList.lookup_insert_ne h, if_neg h]

theorem lookup_erase_if (a : α) (x : α) : (m.erase a).lookup x = if x = a then none else m.lookup x := by
  by_cases h : x = a
  · subst h
    rw [AList.lookup_erase, if_pos rfl]
  · rw [AList.lookup_erase_ne h, if_neg h]

theorem weight_fresh {f : α → β → Nat} {a : α} {b : β} (h : m.lookup a = none) :
    weight f (m.insert a b) = f a b + weight f m := by
  rw [weight_insert, erase_of_lookup_none h]

theorem weight_none {f : α → β → Nat} (h : ∀ a, m.lookup a = none) : weight f m = 0 := by
  have hnil : m.entries = [] := by
    cases hent : m.entries with
    | nil => rfl
    | cons p rest =>
      have hin : p ∈ m.entries := by simp [hent]
      have := AList.mem_lookup_iff.mpr hin
      rw [h] at this
      cases this
  simp [weight, hnil]

/-- A value put in another's place changes the weight by the difference. -/
theorem weight_replace {f : α → β → Nat} {a : α} {b b' : β} (h : m.lookup a = some b) (hf : f a b' = f a b) :
    weight f (m.insert a b') = weight f m := by
  rw [weight_insert, hf, weight_erase h]

theorem map_lookup_replace {γ : Type*} {g : β → γ} {a : α} {b b' : β} (h : m.lookup a = some b) (hg : g b' = g b)
    (x : α) : ((m.insert a b').lookup x).map g = (m.lookup x).map g := by
  rw [lookup_insert_if]
  split
  next hx => rw [hx, h, Option.map_some, Option.map_some, hg]
  next => rfl

end

/-! ## The invariant -/

def idOf (m : ToolMemory) (h : Nat) : Option Bytes := (m.entryAt.lookup h).map (·.id)

def blockOf (m : ToolMemory) (h : Nat) : Option Nat := (m.entryAt.lookup h).map (·.block)

def stampOf (m : ToolMemory) (h : Nat) : Nat := ((m.entryAt.lookup h).map (·.stamp)).getD 0

def dsmlOf (m : ToolMemory) (k : Nat) : Option Bytes := (m.blockAt.lookup k).map (·.dsml)

/-- The sizes of all live entries and blocks. -/
def liveBytes (m : ToolMemory) : Nat :=
  weight (fun _ e => e.bytes) m.entryAt + weight (fun _ b => b.bytes) m.blockAt

/-- The representation invariant of the tool memory. -/
structure Consistent (m : ToolMemory) : Prop where
  /-- The list has each entry once, and the live entries are those on it. -/
  nodup : m.lru.Nodup
  listed : ∀ h, h ∈ m.lru ↔ ∃ e, m.entryAt.lookup h = some e
  /-- The id index has the ids of the entries, each with its one entry. -/
  index : ∀ id h, m.byId.lookup id = some h ↔ idOf m h = some id
  count : m.entries = m.lru.length
  /-- The block index has the texts of the live blocks, each with its one block. -/
  blockIndex : ∀ d k, m.byBlock.lookup d = some k ↔ dsmlOf m k = some d
  home : ∀ h e, m.entryAt.lookup h = some e → ∃ b, m.blockAt.lookup e.block = some b
  /-- A block counts its entries, has one at least, and lists those that point to it. -/
  refs : ∀ k b, m.blockAt.lookup k = some b →
    b.refs = b.entries.length ∧ 1 ≤ b.refs ∧ b.entries.Nodup ∧ ∀ h, h ∈ b.entries ↔ blockOf m h = some k
  entrySize : ∀ h e, m.entryAt.lookup h = some e → e.id ≠ [] ∧ e.bytes = e.id.length + 1 + sizeofEntry
  blockSize : ∀ k b, m.blockAt.lookup k = some b →
    b.dsml ≠ [] ∧ b.len = b.dsml.length ∧ b.bytes = b.len + 1 + sizeofBlock
  total : m.bytes = liveBytes m
  /-- The stamps fall strictly along the list. -/
  order : m.lru.Pairwise fun h h' => stampOf m h' < stampOf m h
  clock : ∀ h ∈ m.lru, stampOf m h ≤ m.clock
  freshEntry : ∀ h e, m.entryAt.lookup h = some e → h < m.fresh
  freshBlock : ∀ k b, m.blockAt.lookup k = some b → k < m.fresh

/-- What an entry stands for. -/
def pairOf (m : ToolMemory) (h : Nat) : Option (Bytes × Bytes) :=
  (m.entryAt.lookup h).bind fun e => (entryDsml m e).map (e.id, ·)

/-- The (id, DSML) pairs held, the most recently used first. -/
def contents (m : ToolMemory) : List (Bytes × Bytes) := m.lru.filterMap (pairOf m)

theorem consistent_empty (maxEntries : Int) (maxBytes : Nat) : Consistent (ToolMemory.empty maxEntries maxBytes) := by
  constructor <;> simp [ToolMemory.empty, idOf, dsmlOf, liveBytes, weight]

variable {m : ToolMemory}

theorem pairOf_eq {h : Nat} {e : ToolMemoryEntry} {b : ToolMemoryBlock} (he : m.entryAt.lookup h = some e)
    (hb : m.blockAt.lookup e.block = some b) : pairOf m h = some (e.id, b.dsml) := by
  simp [pairOf, he, entryDsml, hb]

theorem Consistent.pair (hm : Consistent m) {h : Nat} {e : ToolMemoryEntry} (he : m.entryAt.lookup h = some e) :
    ∃ b, m.blockAt.lookup e.block = some b ∧ pairOf m h = some (e.id, b.dsml) := by
  obtain ⟨b, hb⟩ := hm.home h e he
  exact ⟨b, hb, pairOf_eq he hb⟩

theorem pairOf_id {h : Nat} {id d : Bytes} (hp : pairOf m h = some (id, d)) : idOf m h = some id := by
  cases he : m.entryAt.lookup h with
  | none => simp [pairOf, he] at hp
  | some e =>
    simp only [pairOf, he, Option.bind_some, Option.map_eq_some_iff, Prod.mk.injEq] at hp
    obtain ⟨d', -, hid, -⟩ := hp
    simp [idOf, he, hid]

theorem Consistent.id_inj (hm : Consistent m) {h h' : Nat} {id : Bytes} (hi : idOf m h = some id)
    (hi' : idOf m h' = some id) : h = h' := by
  rw [← hm.index] at hi hi'
  rw [hi] at hi'
  exact Option.some.inj hi'

theorem Consistent.lru_of_id (hm : Consistent m) {h : Nat} {id : Bytes} (hi : idOf m h = some id) : h ∈ m.lru := by
  obtain ⟨e, he, -⟩ := Option.map_eq_some_iff.mp hi
  exact (hm.listed h).mpr ⟨e, he⟩

theorem mem_contents (hm : Consistent m) {id d : Bytes} :
    (id, d) ∈ contents m ↔ ∃ h, m.byId.lookup id = some h ∧ pairOf m h = some (id, d) := by
  rw [contents, List.mem_filterMap]
  constructor
  · rintro ⟨h, -, hp⟩
    exact ⟨h, (hm.index id h).mpr (pairOf_id hp), hp⟩
  · rintro ⟨h, hi, hp⟩
    exact ⟨h, hm.lru_of_id (pairOf_id hp), hp⟩

/-- Taking an entry off the list takes its id out of the contents. -/
theorem filterMap_erase (hm : Consistent m) {h : Nat} {id : Bytes} (hid : idOf m h = some id) :
    (m.lru.erase h).filterMap (pairOf m) = (contents m).filter (fun e => e.1 ≠ id) := by
  rw [hm.nodup.erase_eq_filter, contents, List.filterMap_filter, List.filter_filterMap]
  refine List.filterMap_congr fun x _ => ?_
  cases hp : pairOf m x with
  | none => simp
  | some q =>
    obtain ⟨i, d⟩ := q
    have hi := pairOf_id hp
    have hiff : x = h ↔ i = id := by
      constructor
      · rintro rfl
        rw [hi] at hid
        exact Option.some.inj hid
      · rintro rfl
        exact hm.id_inj hi hid
    simp [Option.filter, hiff]

theorem contents_keys (hm : Consistent m) : ((contents m).map Prod.fst).Nodup := by
  rw [contents, List.map_filterMap]
  refine List.Nodup.filterMap (fun h h' id hi hi' => ?_) hm.nodup
  have hof : ∀ x, id ∈ (pairOf m x).map Prod.fst → idOf m x = some id := by
    intro x hx
    obtain ⟨⟨i, d⟩, hp, rfl⟩ := Option.map_eq_some_iff.mp hx
    exact pairOf_id hp
  exact hm.id_inj (hof h hi) (hof h' hi')

/-! ## Touch -/

section
variable {h : Nat} {e e' : ToolMemoryEntry}

theorem touch_lru : (toolMemoryTouch m h e').lru = h :: m.lru.erase h := by
  change (if m.lru.head? = some h then m.lru else h :: m.lru.erase h) = h :: m.lru.erase h
  split
  next hhead =>
    obtain ⟨rest, hrest⟩ := List.head?_eq_some_iff.mp hhead
    rw [hrest, List.erase_cons_head]
  next => rfl

theorem touch_stamp (x : Nat) :
    stampOf (toolMemoryTouch m h e') x = if x = h then m.clock + 1 else stampOf m x := by
  simp only [stampOf, toolMemoryTouch, lookup_insert_if]
  split
  next => rfl
  next => rfl

/-- A touch keeps the structures in step: the entry keeps its id, block and size. -/
theorem touch_consistent (hm : Consistent m) (he : m.entryAt.lookup h = some e) (hid : e'.id = e.id)
    (hblock : e'.block = e.block) (hbytes : e'.bytes = e.bytes) : Consistent (toolMemoryTouch m h e') := by
  have hin : h ∈ m.lru := (hm.listed h).mpr ⟨e, he⟩
  have hlru : (toolMemoryTouch m h e').lru = h :: m.lru.erase h := touch_lru
  have hidOf : ∀ x, idOf (toolMemoryTouch m h e') x = idOf m x :=
    map_lookup_replace (g := fun e : ToolMemoryEntry => e.id) he hid
  have hblockOf : ∀ x, blockOf (toolMemoryTouch m h e') x = blockOf m x :=
    map_lookup_replace (g := fun e : ToolMemoryEntry => e.block) he hblock
  have hlook : ∀ x, (toolMemoryTouch m h e').entryAt.lookup x =
      if x = h then some { e' with stamp := m.clock + 1 } else m.entryAt.lookup x := lookup_insert_if _ _
  -- every live entry has an older self with the same fields but the stamp
  have hold : ∀ x a, (toolMemoryTouch m h e').entryAt.lookup x = some a →
      ∃ a', m.entryAt.lookup x = some a' ∧ a.id = a'.id ∧ a.block = a'.block ∧ a.bytes = a'.bytes := by
    intro x a hx
    rw [hlook] at hx
    split at hx
    next hxh =>
      obtain rfl := Option.some.inj hx
      exact ⟨e, by rw [hxh, he], hid, hblock, hbytes⟩
    next => exact ⟨a, hx, rfl, rfl, rfl⟩
  have hperm : (h :: m.lru.erase h).Perm m.lru := (List.perm_cons_erase hin).symm
  constructor
  case nodup =>
    rw [hlru]
    exact hperm.nodup_iff.mpr hm.nodup
  case listed =>
    intro x
    rw [hlru, hperm.mem_iff, hm.listed, hlook]
    split
    next hxh =>
      subst hxh
      simp [he]
    next => exact Iff.rfl
  case index =>
    intro id x
    rw [hidOf]
    exact hm.index id x
  case count =>
    rw [hlru, hperm.length_eq]
    exact hm.count
  case blockIndex => exact hm.blockIndex
  case home =>
    intro x a hx
    obtain ⟨a', ha', -, hb, -⟩ := hold x a hx
    rw [hb]
    exact hm.home x a' ha'
  case refs =>
    intro k b hb
    simp only [hblockOf]
    exact hm.refs k b hb
  case entrySize =>
    intro x a hx
    obtain ⟨a', ha', hi, -, hby⟩ := hold x a hx
    rw [hi, hby]
    exact hm.entrySize x a' ha'
  case blockSize => exact hm.blockSize
  case total =>
    have hw : weight (fun _ e => e.bytes) (m.entryAt.insert h { e' with stamp := m.clock + 1 }) =
        weight (fun _ e => e.bytes) m.entryAt := weight_replace he hbytes
    rw [liveBytes, toolMemoryTouch, hw]
    exact hm.total
  case order =>
    rw [hlru, List.pairwise_cons]
    constructor
    · intro x hx
      have hne : x ≠ h := fun hxh => (hm.nodup.mem_erase_iff.mp hx).1 hxh
      have := hm.clock x (List.mem_of_mem_erase hx)
      rw [touch_stamp, touch_stamp, if_neg hne, if_pos rfl]
      omega
    · refine (hm.order.sublist List.erase_sublist).imp_of_mem fun {x y} hx hy hxy => ?_
      have hx' : x ≠ h := (hm.nodup.mem_erase_iff.mp hx).1
      have hy' : y ≠ h := (hm.nodup.mem_erase_iff.mp hy).1
      rw [touch_stamp, touch_stamp, if_neg hx', if_neg hy']
      exact hxy
  case clock =>
    intro x hx
    rw [hlru, hperm.mem_iff] at hx
    have := hm.clock x hx
    rw [touch_stamp]
    change (if x = h then m.clock + 1 else stampOf m x) ≤ m.clock + 1
    split <;> omega
  case freshEntry =>
    intro x a hx
    obtain ⟨a', ha', -⟩ := hold x a hx
    exact hm.freshEntry x a' ha'
  case freshBlock => exact hm.freshBlock

theorem touch_pairOf (he : m.entryAt.lookup h = some e) (hid : e'.id = e.id) (hblock : e'.block = e.block) (x : Nat) :
    pairOf (toolMemoryTouch m h e') x = pairOf m x := by
  simp only [pairOf, entryDsml, toolMemoryTouch, lookup_insert_if]
  split
  next hx =>
    subst hx
    simp [he, hid, hblock]
  next => rfl

/-- A touch promotes what the entry stands for. -/
theorem touch_contents (hm : Consistent m) (he : m.entryAt.lookup h = some e) (hid : e'.id = e.id)
    (hblock : e'.block = e.block) {b : ToolMemoryBlock} (hb : m.blockAt.lookup e.block = some b) :
    contents (toolMemoryTouch m h e') = promote e.id b.dsml (contents m) := by
  have hpair := pairOf_eq he hb
  rw [contents, touch_lru, funext (touch_pairOf he hid hblock), List.filterMap_cons_some hpair, promote,
    filterMap_erase hm (pairOf_id hpair)]

end

/-! ## Removal -/

section
variable {h : Nat} {e : ToolMemoryEntry} {b : ToolMemoryBlock}

/-- Everything a removal does: the entry goes from the index, the list and the
   heap, and its block loses a reference, or goes with its last one. -/
theorem remove_eq (he : m.entryAt.lookup h = some e) (hb : m.blockAt.lookup e.block = some b) :
    toolMemoryRemoveEntry m h =
      { m with
        byId := m.byId.erase e.id
        lru := m.lru.erase h
        entries := m.entries - 1
        entryAt := m.entryAt.erase h
        bytes := m.bytes - e.bytes - (if 1 < b.refs then 0 else b.bytes)
        byBlock := if 1 < b.refs then m.byBlock else m.byBlock.erase b.dsml
        blockAt :=
          if 1 < b.refs then m.blockAt.insert e.block { b with entries := b.entries.erase h, refs := b.refs - 1 }
          else m.blockAt.erase e.block } := by
  have hsat : ∀ x y : Nat, (if x ≥ y then x - y else 0) = x - y := by
    intro x y
    split <;> omega
  have hcount : (if m.entries > 0 then m.entries - 1 else m.entries) = m.entries - 1 := by
    split <;> omega
  by_cases hr : 1 < b.refs
  · have hr' : b.refs - 1 > 0 := by omega
    simp only [toolMemoryRemoveEntry, he, hb, toolMemoryReleaseBlock, if_pos hr, if_pos hr', hsat, hcount, Nat.sub_zero]
  · have hr' : ¬b.refs - 1 > 0 := by omega
    simp only [toolMemoryRemoveEntry, he, hb, toolMemoryReleaseBlock, if_neg hr, if_neg hr', hsat, hcount]

theorem remove_entryAt (he : m.entryAt.lookup h = some e) (hb : m.blockAt.lookup e.block = some b) (x : Nat) :
    (toolMemoryRemoveEntry m h).entryAt.lookup x = if x = h then none else m.entryAt.lookup x := by
  rw [remove_eq he hb]
  exact lookup_erase_if h x

theorem remove_blockAt (he : m.entryAt.lookup h = some e) (hb : m.blockAt.lookup e.block = some b) (k : Nat) :
    (toolMemoryRemoveEntry m h).blockAt.lookup k =
      if k = e.block then
        if 1 < b.refs then some { b with entries := b.entries.erase h, refs := b.refs - 1 } else none
      else m.blockAt.lookup k := by
  rw [remove_eq he hb]
  by_cases hr : 1 < b.refs
  · simp only [if_pos hr]
    exact lookup_insert_if _ _ k
  · simp only [if_neg hr]
    exact lookup_erase_if _ k

/-- The texts of the blocks that stay are what they were. -/
theorem remove_dsmlOf (he : m.entryAt.lookup h = some e) (hb : m.blockAt.lookup e.block = some b) (k : Nat) :
    dsmlOf (toolMemoryRemoveEntry m h) k = if k = e.block ∧ ¬1 < b.refs then none else dsmlOf m k := by
  rw [dsmlOf, remove_blockAt he hb]
  by_cases hk : k = e.block
  · subst hk
    by_cases hr : 1 < b.refs
    · simp [hr, dsmlOf, hb]
    · simp [hr]
  · simp [hk, dsmlOf]

/-- The last reference to a block is the entry that goes. -/
theorem Consistent.sole (hm : Consistent m) (he : m.entryAt.lookup h = some e) (hb : m.blockAt.lookup e.block = some b)
    (hr : ¬1 < b.refs) {x : Nat} (hx : blockOf m x = some e.block) : x = h := by
  obtain ⟨hlen, -, -, hall⟩ := hm.refs _ b hb
  obtain ⟨y, hy⟩ : ∃ y, b.entries = [y] := by
    have : h ∈ b.entries := (hall h).mpr (by simp [blockOf, he])
    cases hent : b.entries with
    | nil => simp [hent] at this
    | cons y rest =>
      cases rest with
      | nil => exact ⟨y, rfl⟩
      | cons z rest =>
        rw [hent, List.length_cons, List.length_cons] at hlen
        omega
  have hxin := (hall x).mpr hx
  have hhin := (hall h).mpr (by simp [blockOf, he])
  rw [hy, List.mem_singleton] at hxin hhin
  rw [hxin, hhin]

theorem remove_liveBytes (he : m.entryAt.lookup h = some e)
    (hb : m.blockAt.lookup e.block = some b) :
    liveBytes (toolMemoryRemoveEntry m h) + e.bytes + (if 1 < b.refs then 0 else b.bytes) = liveBytes m := by
  have hwe : e.bytes + weight (fun _ e => e.bytes) (m.entryAt.erase h) = weight (fun _ e => e.bytes) m.entryAt :=
    weight_erase (f := fun (_ : Nat) (e : ToolMemoryEntry) => e.bytes) he
  have hwb : b.bytes + weight (fun _ b => b.bytes) (m.blockAt.erase e.block) = weight (fun _ b => b.bytes) m.blockAt :=
    weight_erase (f := fun (_ : Nat) (b : ToolMemoryBlock) => b.bytes) hb
  rw [remove_eq he hb]
  simp only [liveBytes]
  by_cases hr : 1 < b.refs
  · simp only [if_pos hr]
    have hrep : weight (fun _ b => b.bytes)
        (m.blockAt.insert e.block { b with entries := b.entries.erase h, refs := b.refs - 1 }) =
        weight (fun _ b => b.bytes) m.blockAt := weight_replace hb rfl
    omega
  · simp only [if_neg hr]
    omega

theorem remove_consistent (hm : Consistent m) (he : m.entryAt.lookup h = some e)
    (hb : m.blockAt.lookup e.block = some b) : Consistent (toolMemoryRemoveEntry m h) := by
  have hentry := remove_entryAt he hb
  have hblk := remove_blockAt he hb
  have hdsml := remove_dsmlOf he hb
  have hlru : (toolMemoryRemoveEntry m h).lru = m.lru.erase h := by rw [remove_eq he hb]
  have hin : h ∈ m.lru := (hm.listed h).mpr ⟨e, he⟩
  have hidh : idOf m h = some e.id := by simp [idOf, he]
  have hidOf : ∀ x, idOf (toolMemoryRemoveEntry m h) x = if x = h then none else idOf m x := by
    intro x
    rw [idOf, hentry]
    split <;> rfl
  have hblockOf : ∀ x, blockOf (toolMemoryRemoveEntry m h) x = if x = h then none else blockOf m x := by
    intro x
    rw [blockOf, hentry]
    split <;> rfl
  have hstamp : ∀ x, x ≠ h → stampOf (toolMemoryRemoveEntry m h) x = stampOf m x := by
    intro x hx
    rw [stampOf, hentry, if_neg hx, stampOf]
  have hlive : ∀ x a, (toolMemoryRemoveEntry m h).entryAt.lookup x = some a → x ≠ h ∧ m.entryAt.lookup x = some a := by
    intro x a hx
    rw [hentry] at hx
    split at hx
    next => cases hx
    next hne => exact ⟨hne, hx⟩
  have hne : ∀ x ∈ m.lru.erase h, x ≠ h ∧ x ∈ m.lru := fun x hx => hm.nodup.mem_erase_iff.mp hx
  constructor
  case nodup =>
    rw [hlru]
    exact hm.nodup.erase h
  case listed =>
    intro x
    rw [hlru, hm.nodup.mem_erase_iff, hm.listed, hentry]
    by_cases hx : x = h
    · simp [hx]
    · simp [hx]
  case index =>
    intro id x
    have hbyId : (toolMemoryRemoveEntry m h).byId = m.byId.erase e.id := by rw [remove_eq he hb]
    rw [hbyId, lookup_erase_if, hidOf]
    by_cases hid : id = e.id
    · -- the id has left the index, and the one entry that had it has left the heap
      rw [if_pos hid, hid]
      refine ⟨fun hno => by simp at hno, fun hyes => ?_⟩
      by_cases hx : x = h
      · simp [hx] at hyes
      · rw [if_neg hx] at hyes
        exact absurd (hm.id_inj hyes hidh) hx
    · rw [if_neg hid, hm.index]
      by_cases hx : x = h
      · subst hx
        rw [hidh, if_pos rfl]
        refine ⟨fun heq => absurd (Option.some.inj heq).symm hid, fun hno => by simp at hno⟩
      · rw [if_neg hx]
  case count =>
    rw [hlru, List.length_erase_of_mem hin, ← hm.count, remove_eq he hb]
  case blockIndex =>
    intro d k
    have hbyBlock : (toolMemoryRemoveEntry m h).byBlock.lookup d =
        if d = b.dsml ∧ ¬1 < b.refs then none else m.byBlock.lookup d := by
      rw [remove_eq he hb]
      by_cases hr : 1 < b.refs
      · simp [hr]
      · simp only [hr, not_false_eq_true, and_true]
        exact lookup_erase_if _ d
    have hown : dsmlOf m e.block = some b.dsml := by simp [dsmlOf, hb]
    rw [hbyBlock, hdsml]
    by_cases hr : 1 < b.refs
    · simp only [hr, not_true_eq_false, and_false, if_false]
      exact hm.blockIndex d k
    · simp only [hr, not_false_eq_true, and_true]
      by_cases hk : k = e.block
      · rw [if_pos hk]
        split
        next => simp
        next hd =>
          rw [hm.blockIndex, hk, hown]
          exact ⟨fun heq => absurd (Option.some.inj heq).symm hd, fun hno => by simp at hno⟩
      · rw [if_neg hk]
        split
        next hd =>
          refine ⟨fun hno => by simp at hno, fun hyes => ?_⟩
          rw [← hm.blockIndex] at hyes hown
          rw [hd, hown] at hyes
          exact absurd (Option.some.inj hyes).symm hk
        next => exact hm.blockIndex d k
  case home =>
    intro x a hx
    obtain ⟨hne, ha⟩ := hlive x a hx
    obtain ⟨c, hc⟩ := hm.home x a ha
    rw [hblk]
    split
    next hk =>
      split
      next => exact ⟨_, rfl⟩
      next hr =>
        have hxb : blockOf m x = some e.block := by simp [blockOf, ha, hk]
        exact absurd (hm.sole he hb hr hxb) hne
    next => exact ⟨c, hc⟩
  case refs =>
    intro k c hc
    rw [hblk] at hc
    by_cases hk : k = e.block
    · rw [if_pos hk] at hc
      by_cases hr : 1 < b.refs
      · rw [if_pos hr] at hc
        obtain rfl := Option.some.inj hc
        obtain ⟨hlen, -, hnd, hall⟩ := hm.refs _ b hb
        have hhin : h ∈ b.entries := (hall h).mpr (by simp [blockOf, he])
        refine ⟨?_, by change 1 ≤ b.refs - 1; omega, hnd.erase h, fun x => ?_⟩
        · change b.refs - 1 = (b.entries.erase h).length
          rw [List.length_erase_of_mem hhin, hlen]
        · change x ∈ b.entries.erase h ↔ _
          rw [hnd.mem_erase_iff, hall, hblockOf, hk]
          by_cases hx : x = h
          · simp [hx]
          · simp [hx]
      · simp [hr] at hc
    · rw [if_neg hk] at hc
      obtain ⟨hlen, hpos, hnd, hall⟩ := hm.refs k c hc
      refine ⟨hlen, hpos, hnd, fun x => ?_⟩
      rw [hall, hblockOf]
      by_cases hx : x = h
      · subst hx
        have : blockOf m x = some e.block := by simp [blockOf, he]
        simp [this, Ne.symm hk]
      · rw [if_neg hx]
  case entrySize =>
    intro x a hx
    exact hm.entrySize x a (hlive x a hx).2
  case blockSize =>
    intro k c hc
    rw [hblk] at hc
    split at hc
    next hk =>
      split at hc
      next =>
        obtain rfl := Option.some.inj hc
        exact hm.blockSize _ b hb
      next => cases hc
    next => exact hm.blockSize k c hc
  case total =>
    have hsum := remove_liveBytes he hb
    have htotal := hm.total
    have hbytes : (toolMemoryRemoveEntry m h).bytes = m.bytes - e.bytes - (if 1 < b.refs then 0 else b.bytes) := by
      rw [remove_eq he hb]
    omega
  case order =>
    rw [hlru]
    refine (hm.order.sublist List.erase_sublist).imp_of_mem fun {x y} hx hy hxy => ?_
    rw [hstamp x (hne x hx).1, hstamp y (hne y hy).1]
    exact hxy
  case clock =>
    intro x hx
    rw [hlru] at hx
    rw [hstamp x (hne x hx).1, remove_eq he hb]
    exact hm.clock x (hne x hx).2
  case freshEntry =>
    intro x a hx
    rw [remove_eq he hb]
    exact hm.freshEntry x a (hlive x a hx).2
  case freshBlock =>
    intro k c hc
    rw [hblk] at hc
    rw [remove_eq he hb]
    split at hc
    next hk =>
      rw [hk]
      exact hm.freshBlock _ b hb
    next => exact hm.freshBlock k c hc

theorem remove_pairOf (hm : Consistent m) (he : m.entryAt.lookup h = some e)
    (hb : m.blockAt.lookup e.block = some b) {x : Nat} (hx : x ≠ h) :
    pairOf (toolMemoryRemoveEntry m h) x = pairOf m x := by
  rw [pairOf, remove_entryAt he hb, if_neg hx, pairOf]
  refine Option.bind_congr fun a ha => ?_
  change (dsmlOf (toolMemoryRemoveEntry m h) a.block).map _ = (dsmlOf m a.block).map _
  rw [remove_dsmlOf he hb, if_neg]
  rintro ⟨hk, hr⟩
  exact hx (hm.sole he hb hr (by simp [blockOf, ha, hk]))

/-- A removal filters its id out of the contents. -/
theorem remove_contents (hm : Consistent m) (he : m.entryAt.lookup h = some e)
    (hb : m.blockAt.lookup e.block = some b) :
    contents (toolMemoryRemoveEntry m h) = (contents m).filter (fun p => p.1 ≠ e.id) := by
  have hid : idOf m h = some e.id := by simp [idOf, he]
  have hlru : (toolMemoryRemoveEntry m h).lru = m.lru.erase h := by rw [remove_eq he hb]
  rw [contents, hlru, ← filterMap_erase hm hid]
  exact List.filterMap_congr fun x hx => remove_pairOf hm he hb (hm.nodup.mem_erase_iff.mp hx).1

end

/-! ## A new entry -/

/-- Everything `toolMemoryNewEntry` does: an entry `e` under a new handle `h`, in
   the block `k`, which was `b` before (with no reference yet when it is new). -/
structure NewEntry (m m' : ToolMemory) (id dsml : Bytes) (h k : Nat) (e : ToolMemoryEntry) (b : ToolMemoryBlock) :
    Prop where
  entryAt : ∀ x, m'.entryAt.lookup x = if x = h then some e else m.entryAt.lookup x
  blockAt : ∀ x, m'.blockAt.lookup x =
    if x = k then some { b with entries := h :: b.entries, refs := b.refs + 1 } else m.blockAt.lookup x
  byId : ∀ i, m'.byId.lookup i = if i = id then some h else m.byId.lookup i
  byBlock : ∀ d, m'.byBlock.lookup d = if d = dsml then some k else m.byBlock.lookup d
  lru : m'.lru = h :: m.lru
  entries : m'.entries = m.entries + 1
  clock : m'.clock = m.clock + 1
  total : m'.bytes + liveBytes m = m.bytes + liveBytes m'
  fresh : h < m'.fresh ∧ k < m'.fresh ∧ m.fresh ≤ m'.fresh
  unused : m.entryAt.lookup h = none
  own : ∀ x d, m.byBlock.lookup d = some x → (x = k ↔ d = dsml)
  stamp : e.stamp = m.clock + 1
  entryId : e.id = id
  entryBlock : e.block = k
  entryBytes : e.bytes = id.length + 1 + sizeofEntry
  blockDsml : b.dsml = dsml
  blockLen : b.len = dsml.length
  blockBytes : b.bytes = b.len + 1 + sizeofBlock
  blockRefs : b.refs = b.entries.length
  blockNodup : b.entries.Nodup
  blockEntries : ∀ x, x ∈ b.entries ↔ blockOf m x = some k

section
variable {id dsml : Bytes} {source : ToolMemorySource}

theorem Consistent.unused (hm : Consistent m) {h : Nat} (hfresh : m.fresh ≤ h) : m.entryAt.lookup h = none := by
  cases he : m.entryAt.lookup h with
  | none => rfl
  | some e =>
    have := hm.freshEntry h e he
    omega

/-- The new entry, once its block is there. -/
theorem newEntry_eq {m' : ToolMemory} {k : Nat} {b : ToolMemoryBlock} (hget : toolMemoryGetBlock m dsml = (m', k))
    (hb : m'.blockAt.lookup k = some b) :
    toolMemoryNewEntry m id dsml source =
      { m' with
        entryAt := m'.entryAt.insert m'.fresh (memoryEntry id k (m'.clock + 1) source)
        fresh := m'.fresh + 1
        clock := m'.clock + 1
        blockAt := m'.blockAt.insert k { b with entries := m'.fresh :: b.entries, refs := b.refs + 1 }
        byId := m'.byId.insert id m'.fresh
        lru := m'.fresh :: m'.lru
        entries := m'.entries + 1
        bytes := m'.bytes + (memoryEntry id k (m'.clock + 1) source).bytes } := by
  unfold toolMemoryNewEntry
  rw [hget]
  simp only [hb]

/-- The entry joins the block that has its text. -/
theorem newEntry_shared (id : Bytes) (source : ToolMemorySource) (hm : Consistent m) (hdsml : dsml ≠ [])
    {k : Nat} (hk : m.byBlock.lookup dsml = some k) :
    ∃ h e b, NewEntry m (toolMemoryNewEntry m id dsml source) id dsml h k e b := by
  obtain ⟨b, hb, hbd⟩ := Option.map_eq_some_iff.mp ((hm.blockIndex dsml k).mp hk)
  have hget : toolMemoryGetBlock m dsml = (m, k) := by simp [toolMemoryGetBlock, toolMemoryFindBlock, hdsml, hk]
  obtain ⟨hrefs, -, hnd, hall⟩ := hm.refs k b hb
  obtain ⟨-, hlen, hsize⟩ := hm.blockSize k b hb
  refine ⟨m.fresh, memoryEntry id k (m.clock + 1) source, b, ?_⟩
  rw [newEntry_eq hget hb]
  have hunused := hm.unused (Nat.le_refl m.fresh)
  have hwe : ∀ e, weight (fun _ e => e.bytes) (m.entryAt.insert m.fresh e) =
      e.bytes + weight (fun _ e => e.bytes) m.entryAt := fun e => weight_fresh hunused
  have hwb : weight (fun _ b => b.bytes)
      (m.blockAt.insert k { b with entries := m.fresh :: b.entries, refs := b.refs + 1 }) =
      weight (fun _ b => b.bytes) m.blockAt := weight_replace hb rfl
  constructor
  case entryAt => exact lookup_insert_if _ _
  case blockAt => exact lookup_insert_if _ _
  case byId => exact lookup_insert_if _ _
  case byBlock =>
    intro d
    split
    next hd => rw [hd, hk]
    next => rfl
  case lru => rfl
  case entries => rfl
  case clock => rfl
  case total =>
    simp only [liveBytes, hwe, hwb]
    omega
  case fresh =>
    have := hm.freshBlock k b hb
    simp only []
    omega
  case unused => exact hunused
  case own =>
    intro x d hx
    have hxd := (hm.blockIndex d x).mp hx
    constructor
    · rintro rfl
      rw [dsmlOf, hb] at hxd
      rw [← hbd]
      exact (Option.some.inj hxd).symm
    · rintro rfl
      rw [hk] at hx
      exact (Option.some.inj hx).symm
  case stamp => rfl
  case entryId => rfl
  case entryBlock => rfl
  case entryBytes => rfl
  case blockDsml => exact hbd
  case blockLen => rw [hlen, hbd]
  case blockBytes => exact hsize
  case blockRefs => exact hrefs
  case blockNodup => exact hnd
  case blockEntries => exact hall

/-- The entry is the first of a new block. -/
theorem newEntry_fresh (hm : Consistent m) (hk : m.byBlock.lookup dsml = none) :
    ∃ h k e b, NewEntry m (toolMemoryNewEntry m id dsml source) id dsml h k e b := by
  have hnoblock : m.blockAt.lookup m.fresh = none := by
    cases hb : m.blockAt.lookup m.fresh with
    | none => rfl
    | some c =>
      have := hm.freshBlock _ c hb
      omega
  have hfind : toolMemoryFindBlock m dsml = none := by simp [toolMemoryFindBlock, hk]
  have hget : toolMemoryGetBlock m dsml =
      ({ m with
          blockAt := m.blockAt.insert m.fresh (memoryBlock dsml)
          byBlock := m.byBlock.insert dsml m.fresh
          fresh := m.fresh + 1
          bytes := m.bytes + (memoryBlock dsml).bytes }, m.fresh) := by
    rw [toolMemoryGetBlock, hfind]
  have hin : (m.blockAt.insert m.fresh (memoryBlock dsml)).lookup m.fresh = some (memoryBlock dsml) :=
    AList.lookup_insert _
  refine ⟨m.fresh + 1, m.fresh, memoryEntry id m.fresh (m.clock + 1) source, memoryBlock dsml, ?_⟩
  rw [newEntry_eq hget hin]
  have hunused := hm.unused (Nat.le_succ m.fresh)
  have hwe : ∀ e, weight (fun _ e => e.bytes) (m.entryAt.insert (m.fresh + 1) e) =
      e.bytes + weight (fun _ e => e.bytes) m.entryAt := fun e => weight_fresh hunused
  have hwb : weight (fun _ b => b.bytes) ((m.blockAt.insert m.fresh (memoryBlock dsml)).insert m.fresh
      { memoryBlock dsml with
        entries := (m.fresh + 1) :: (memoryBlock dsml).entries, refs := (memoryBlock dsml).refs + 1 }) =
      (memoryBlock dsml).bytes + weight (fun _ b => b.bytes) m.blockAt := by
    refine (weight_replace hin ?_).trans (weight_fresh hnoblock)
    rfl
  constructor
  case entryAt => exact lookup_insert_if _ _
  case blockAt =>
    intro x
    refine (lookup_insert_if _ _ x).trans ?_
    split
    next => rfl
    next hx => exact (lookup_insert_if _ _ x).trans (if_neg hx)
  case byId => exact lookup_insert_if _ _
  case byBlock => exact lookup_insert_if _ _
  case lru => rfl
  case entries => rfl
  case clock => rfl
  case total =>
    simp only [liveBytes, hwe, hwb]
    omega
  case fresh =>
    simp only []
    omega
  case unused => exact hunused
  case own =>
    intro x d hx
    obtain ⟨c, hc, -⟩ := Option.map_eq_some_iff.mp ((hm.blockIndex d x).mp hx)
    have hlt := hm.freshBlock x c hc
    constructor
    · intro hxe
      omega
    · rintro rfl
      rw [hk] at hx
      cases hx
  case stamp => rfl
  case entryId => rfl
  case entryBlock => rfl
  case entryBytes => rfl
  case blockDsml => rfl
  case blockLen => rfl
  case blockBytes => rfl
  case blockRefs => rfl
  case blockNodup => exact List.nodup_nil
  case blockEntries =>
    intro x
    refine ⟨fun hx => absurd hx List.not_mem_nil, fun hx => ?_⟩
    obtain ⟨a, ha, hab⟩ := Option.map_eq_some_iff.mp hx
    obtain ⟨c, hc⟩ := hm.home x a ha
    rw [hab, hnoblock] at hc
    cases hc

theorem exists_newEntry (id : Bytes) (source : ToolMemorySource) (hm : Consistent m) (hdsml : dsml ≠ []) :
    ∃ h k e b, NewEntry m (toolMemoryNewEntry m id dsml source) id dsml h k e b := by
  cases hk : m.byBlock.lookup dsml with
  | none => exact newEntry_fresh hm hk
  | some k =>
    obtain ⟨h, e, b, hnew⟩ := newEntry_shared id source hm hdsml hk
    exact ⟨h, k, e, b, hnew⟩

end

section
variable {m' : ToolMemory} {id dsml : Bytes} {h k : Nat} {e : ToolMemoryEntry} {b : ToolMemoryBlock}

theorem NewEntry.dsmlOf (hn : NewEntry m m' id dsml h k e b) (x : Nat) :
    dsmlOf m' x = if x = k then some dsml else dsmlOf m x := by
  rw [Server.dsmlOf, hn.blockAt]
  split
  next => rw [Option.map_some, hn.blockDsml]
  next => rfl

theorem NewEntry.blockOf (hn : NewEntry m m' id dsml h k e b) (x : Nat) :
    blockOf m' x = if x = h then some k else blockOf m x := by
  rw [Server.blockOf, hn.entryAt]
  split
  next => rw [Option.map_some, hn.entryBlock]
  next => rfl

theorem NewEntry.idOf (hn : NewEntry m m' id dsml h k e b) (x : Nat) :
    idOf m' x = if x = h then some id else idOf m x := by
  rw [Server.idOf, hn.entryAt]
  split
  next => rw [Option.map_some, hn.entryId]
  next => rfl

theorem NewEntry.notListed (hn : NewEntry m m' id dsml h k e b) (hm : Consistent m) : h ∉ m.lru := by
  rw [hm.listed, hn.unused]
  simp

theorem NewEntry.stampOf (hn : NewEntry m m' id dsml h k e b) (x : Nat) :
    stampOf m' x = if x = h then m.clock + 1 else stampOf m x := by
  rw [Server.stampOf, hn.entryAt]
  split
  next => rw [Option.map_some, hn.stamp, Option.getD_some]
  next => rfl

/-- A new entry under an id that has none keeps the structures in step. -/
theorem NewEntry.consistent (hn : NewEntry m m' id dsml h k e b) (hm : Consistent m) (hid : id ≠ []) (hdsml : dsml ≠ [])
    (hfree : m.byId.lookup id = none) : Consistent m' := by
  have hnot := hn.notListed hm
  have hne : ∀ x ∈ m.lru, x ≠ h := fun x hx hxh => hnot (hxh ▸ hx)
  obtain ⟨hfh, hfk, hfm⟩ := hn.fresh
  constructor
  case nodup =>
    rw [hn.lru]
    exact List.nodup_cons.mpr ⟨hnot, hm.nodup⟩
  case listed =>
    intro x
    rw [hn.lru, List.mem_cons, hm.listed, hn.entryAt]
    by_cases hx : x = h
    · simp [hx]
    · simp [hx]
  case index =>
    intro i x
    rw [hn.byId, hn.idOf]
    by_cases hi : i = id
    · rw [if_pos hi, hi]
      by_cases hx : x = h
      · simp [hx]
      · rw [if_neg hx, ← hm.index, hfree]
        simp [Ne.symm hx]
    · rw [if_neg hi, hm.index]
      by_cases hx : x = h
      · subst hx
        simp [Server.idOf, hn.unused, Ne.symm hi]
      · rw [if_neg hx]
  case count => rw [hn.lru, hn.entries, hm.count, List.length_cons]
  case blockIndex =>
    intro d x
    rw [hn.byBlock, hn.dsmlOf]
    by_cases hd : d = dsml
    · rw [if_pos hd, hd]
      by_cases hx : x = k
      · simp [hx]
      · rw [if_neg hx, ← hm.blockIndex]
        refine ⟨fun heq => absurd (Option.some.inj heq).symm hx, fun heq => ?_⟩
        exact absurd ((hn.own x dsml heq).mpr rfl) hx
    · rw [if_neg hd, hm.blockIndex]
      by_cases hx : x = k
      · rw [if_pos hx]
        refine ⟨fun heq => ?_, fun heq => absurd (Option.some.inj heq).symm hd⟩
        exact absurd ((hn.own x d ((hm.blockIndex d x).mpr heq)).mp hx) hd
      · rw [if_neg hx]
  case home =>
    intro x a ha
    rw [hn.blockAt]
    split
    next => exact ⟨_, rfl⟩
    next hk =>
      rw [hn.entryAt] at ha
      split at ha
      next =>
        obtain rfl := Option.some.inj ha
        exact absurd hn.entryBlock hk
      next => exact hm.home x a ha
  case refs =>
    intro x c hc
    rw [hn.blockAt] at hc
    by_cases hx : x = k
    · rw [if_pos hx] at hc
      obtain rfl := Option.some.inj hc
      have hnin : h ∉ b.entries := by
        rw [hn.blockEntries, Server.blockOf, hn.unused]
        simp
      refine ⟨?_, Nat.le_add_left 1 b.refs, List.nodup_cons.mpr ⟨hnin, hn.blockNodup⟩, fun y => ?_⟩
      · simp [hn.blockRefs]
      · rw [List.mem_cons, hn.blockEntries, hn.blockOf, hx]
        by_cases hy : y = h
        · simp [hy]
        · simp [hy]
    · rw [if_neg hx] at hc
      obtain ⟨hrefs, hpos, hnd, hall⟩ := hm.refs x c hc
      refine ⟨hrefs, hpos, hnd, fun y => ?_⟩
      rw [hall, hn.blockOf]
      by_cases hy : y = h
      · subst hy
        simp [Server.blockOf, hn.unused, Ne.symm hx]
      · rw [if_neg hy]
  case entrySize =>
    intro x a ha
    rw [hn.entryAt] at ha
    split at ha
    next =>
      obtain rfl := Option.some.inj ha
      rw [hn.entryId]
      exact ⟨hid, hn.entryBytes⟩
    next => exact hm.entrySize x a ha
  case blockSize =>
    intro x c hc
    rw [hn.blockAt] at hc
    split at hc
    next =>
      obtain rfl := Option.some.inj hc
      refine ⟨?_, ?_, hn.blockBytes⟩
      · change b.dsml ≠ []
        rw [hn.blockDsml]
        exact hdsml
      · change b.len = b.dsml.length
        rw [hn.blockLen, hn.blockDsml]
    next => exact hm.blockSize x c hc
  case total =>
    have hbytes := hn.total
    have htotal := hm.total
    omega
  case order =>
    rw [hn.lru, List.pairwise_cons]
    constructor
    · intro x hx
      have := hm.clock x hx
      rw [hn.stampOf, hn.stampOf, if_neg (hne x hx), if_pos rfl]
      omega
    · refine hm.order.imp_of_mem fun {x y} hx hy hxy => ?_
      rw [hn.stampOf, hn.stampOf, if_neg (hne x hx), if_neg (hne y hy)]
      exact hxy
  case clock =>
    intro x hx
    rw [hn.lru, List.mem_cons] at hx
    rw [hn.stampOf, hn.clock]
    rcases hx with hx | hx
    · rw [if_pos hx]
    · have := hm.clock x hx
      rw [if_neg (hne x hx)]
      omega
  case freshEntry =>
    intro x a ha
    rw [hn.entryAt] at ha
    split at ha
    next hx => rwa [hx]
    next =>
      have := hm.freshEntry x a ha
      omega
  case freshBlock =>
    intro x c hc
    rw [hn.blockAt] at hc
    split at hc
    next hx => rwa [hx]
    next =>
      have := hm.freshBlock x c hc
      omega

/-- The new entry goes before what was held. -/
theorem NewEntry.contents (hn : NewEntry m m' id dsml h k e b) (hm : Consistent m) :
    contents m' = (id, dsml) :: contents m := by
  have hpair : pairOf m' h = some (id, dsml) := by
    have hb' : m'.blockAt.lookup e.block = some { b with entries := h :: b.entries, refs := b.refs + 1 } := by
      rw [hn.blockAt, if_pos hn.entryBlock]
    have he' : m'.entryAt.lookup h = some e := by rw [hn.entryAt, if_pos rfl]
    rw [pairOf_eq he' hb', hn.entryId, hn.blockDsml]
  have hrest : ∀ x ∈ m.lru, pairOf m' x = pairOf m x := by
    intro x hx
    have hxh : x ≠ h := fun hxh => hn.notListed hm (hxh ▸ hx)
    rw [pairOf, hn.entryAt, if_neg hxh, pairOf]
    refine Option.bind_congr fun a ha => ?_
    -- an old entry of this block had its text before
    change (Server.dsmlOf m' a.block).map _ = (Server.dsmlOf m a.block).map _
    rw [hn.dsmlOf]
    split
    next hk =>
      obtain ⟨c, hc⟩ := hm.home x a ha
      have hd : Server.dsmlOf m a.block = some c.dsml := by simp [Server.dsmlOf, hc]
      have := (hn.own a.block c.dsml ((hm.blockIndex _ _).mpr hd)).mp hk
      rw [hd, this]
    next => rfl
  rw [Server.contents, hn.lru, List.filterMap_cons_some hpair, List.filterMap_congr hrest, Server.contents]

end

/-! ## Prune -/

/-- Within both limits. -/
def Fits (m : ToolMemory) : Prop := m.entries ≤ toolMemoryMaxEntries m ∧ m.bytes ≤ toolMemoryMaxBytes m

def SameLimits (m m' : ToolMemory) : Prop := m'.maxEntries = m.maxEntries ∧ m'.maxBytes = m.maxBytes

theorem remove_limits (h : Nat) : SameLimits m (toolMemoryRemoveEntry m h) := by
  unfold toolMemoryRemoveEntry
  split
  next => exact ⟨rfl, rfl⟩
  next =>
    simp only []
    split
    next => exact ⟨rfl, rfl⟩
    next =>
      unfold toolMemoryReleaseBlock
      split <;> exact ⟨rfl, rfl⟩

theorem SameLimits.trans {m' m'' : ToolMemory} (h : SameLimits m m') (h' : SameLimits m' m'') : SameLimits m m'' :=
  ⟨h'.1.trans h.1, h'.2.trans h.2⟩

/-- With nothing on the list nothing is live, and the counters are at zero. -/
theorem fits_of_nil (hm : Consistent m) (hlru : m.lru = []) : Fits m := by
  have hnone : ∀ h, m.entryAt.lookup h = none := by
    intro h
    cases he : m.entryAt.lookup h with
    | none => rfl
    | some e =>
      have := (hm.listed h).mpr ⟨e, he⟩
      rw [hlru] at this
      cases this
  have hnob : ∀ k, m.blockAt.lookup k = none := by
    intro k
    cases hb : m.blockAt.lookup k with
    | none => rfl
    | some b =>
      obtain ⟨hrefs, hpos, -, hall⟩ := hm.refs k b hb
      obtain ⟨x, hx⟩ := List.exists_mem_of_length_pos (by omega : 0 < b.entries.length)
      have := (hall x).mp hx
      rw [blockOf, hnone] at this
      cases this
  have hzero : m.bytes = 0 := by rw [hm.total, liveBytes, weight_none hnone, weight_none hnob]
  have hcount : m.entries = 0 := by rw [hm.count, hlru, List.length_nil]
  rw [Fits, hzero, hcount]
  exact ⟨Nat.zero_le _, Nat.zero_le _⟩

/-- What a removal of the last entry leaves is what stood before it. -/
theorem remove_last_contents (hm : Consistent m) {tail : Nat} {init : List Nat} (hlru : m.lru = init ++ [tail]) :
    Consistent (toolMemoryRemoveEntry m tail) ∧ (toolMemoryRemoveEntry m tail).lru = init ∧
      contents (toolMemoryRemoveEntry m tail) <+: contents m := by
  obtain ⟨e, he⟩ := (hm.listed tail).mp (by rw [hlru]; simp)
  obtain ⟨b, hb⟩ := hm.home tail e he
  have hinit : m.lru.erase tail = init := by
    have hnot : tail ∉ init := by
      have hnd := hm.nodup
      rw [hlru, List.nodup_append] at hnd
      intro hin
      exact hnd.2.2 tail hin tail (by simp) rfl
    rw [hlru, List.erase_append_right _ hnot, List.erase_cons_head, List.append_nil]
  refine ⟨remove_consistent hm he hb, by rw [remove_eq he hb]; exact hinit, ?_⟩
  have hid : idOf m tail = some e.id := by simp [idOf, he]
  rw [remove_contents hm he hb, ← filterMap_erase hm hid, hinit, contents, hlru, List.filterMap_append]
  exact List.prefix_append _ _

/-- The loop ends within the limits, and what it leaves are the most recently used. -/
theorem pruneLoop_spec (fuel : Nat) (hm : Consistent m) (hfuel : m.lru.length ≤ fuel) :
    Consistent (pruneLoop fuel m) ∧ Fits (pruneLoop fuel m) ∧ contents (pruneLoop fuel m) <+: contents m ∧
      SameLimits m (pruneLoop fuel m) := by
  induction fuel generalizing m with
  | zero =>
    have hlru : m.lru = [] := List.length_eq_zero_iff.mp (Nat.le_zero.mp hfuel)
    exact ⟨hm, fits_of_nil hm hlru, List.prefix_rfl, rfl, rfl⟩
  | succ fuel ih =>
    unfold pruneLoop
    split
    next =>
      cases hlast : m.lru.getLast? with
      | none => exact ⟨hm, fits_of_nil hm (List.getLast?_eq_none_iff.mp hlast), List.prefix_rfl, rfl, rfl⟩
      | some tail =>
        obtain ⟨init, hlru⟩ := List.getLast?_eq_some_iff.mp hlast
        obtain ⟨hm', hlen, hpre⟩ := remove_last_contents hm hlru
        have hshort : (toolMemoryRemoveEntry m tail).lru.length ≤ fuel := by
          rw [hlru, List.length_append, List.length_singleton] at hfuel
          rw [hlen]
          omega
        obtain ⟨hc, hf, hp, hl⟩ := ih hm' hshort
        exact ⟨hc, hf, hp.trans hpre, (remove_limits tail).trans hl⟩
    next hover =>
      have hfit : Fits m := by
        rw [not_or, Nat.not_lt, Nat.not_lt] at hover
        exact hover
      exact ⟨hm, hfit, List.prefix_rfl, rfl, rfl⟩

/-- Nothing is evicted while the limits hold. -/
theorem prune_of_fits (hfit : Fits m) : toolMemoryPrune m = m := by
  have hnot : ¬(m.entries > toolMemoryMaxEntries m ∨ m.bytes > toolMemoryMaxBytes m) := by
    rw [not_or, Nat.not_lt, Nat.not_lt]
    exact hfit
  unfold toolMemoryPrune
  cases m.lru.length with
  | zero => rfl
  | succ fuel => rw [pruneLoop, if_neg hnot]

theorem prune_spec (hm : Consistent m) :
    Consistent (toolMemoryPrune m) ∧ Fits (toolMemoryPrune m) ∧ contents (toolMemoryPrune m) <+: contents m ∧
      SameLimits m (toolMemoryPrune m) :=
  pruneLoop_spec _ hm (Nat.le_refl _)

/-! ## Put and lookup -/

section
variable {id dsml : Bytes} {source : ToolMemorySource}

theorem getBlock_limits (m : ToolMemory) (dsml : Bytes) : SameLimits m (toolMemoryGetBlock m dsml).1 := by
  unfold toolMemoryGetBlock
  split <;> exact ⟨rfl, rfl⟩

theorem newEntry_limits (m : ToolMemory) (id dsml : Bytes) (source : ToolMemorySource) :
    SameLimits m (toolMemoryNewEntry m id dsml source) := by
  have h := getBlock_limits m dsml
  unfold toolMemoryNewEntry
  revert h
  generalize toolMemoryGetBlock m dsml = r
  obtain ⟨m', k⟩ := r
  intro h
  simp only []
  split
  next => exact h
  next => exact h

theorem not_mem_contents (hm : Consistent m) (hfree : m.byId.lookup id = none) :
    (contents m).filter (fun p => p.1 ≠ id) = contents m := by
  refine List.filter_eq_self.mpr fun p hp => ?_
  obtain ⟨i, d⟩ := p
  obtain ⟨h, hi, -⟩ := (mem_contents hm).mp hp
  have hne : i ≠ id := by
    rintro rfl
    rw [hfree] at hi
    cases hi
  simpa using hne

theorem newEntry_spec (source : ToolMemorySource) (hm : Consistent m) (hid : id ≠ []) (hdsml : dsml ≠ [])
    (hfree : m.byId.lookup id = none) :
    Consistent (toolMemoryNewEntry m id dsml source) ∧
      contents (toolMemoryNewEntry m id dsml source) = promote id dsml (contents m) := by
  obtain ⟨h, k, e, b, hn⟩ := exists_newEntry id source hm hdsml
  refine ⟨hn.consistent hm hid hdsml hfree, ?_⟩
  rw [hn.contents hm, promote, not_mem_contents hm hfree]

/-- A put promotes its pair, whichever way the memory takes. -/
theorem putEntry_spec (source : ToolMemorySource) (hm : Consistent m) (hid : id ≠ []) (hdsml : dsml ≠ []) :
    Consistent (putEntry m id dsml source) ∧ contents (putEntry m id dsml source) = promote id dsml (contents m) ∧
      SameLimits m (putEntry m id dsml source) := by
  unfold putEntry
  rw [toolMemoryFindEntry, if_neg hid]
  cases hi : m.byId.lookup id with
  | none =>
    obtain ⟨hc, hcon⟩ := newEntry_spec source hm hid hdsml hi
    exact ⟨hc, hcon, newEntry_limits m id dsml source⟩
  | some h =>
    have hidh := (hm.index id h).mp hi
    obtain ⟨e, he, heid⟩ := Option.map_eq_some_iff.mp hidh
    obtain ⟨b, hb⟩ := hm.home h e he
    simp only [he]
    split
    next hsame =>
      have hbd : b.dsml = dsml := by simpa [entryDsml, hb] using hsame
      refine ⟨touch_consistent hm he rfl rfl rfl, ?_, rfl, rfl⟩
      rw [← heid, ← hbd]
      refine touch_contents hm he ?_ ?_ hb <;> rfl
    next =>
      have hm' := remove_consistent hm he hb
      have hfree : (toolMemoryRemoveEntry m h).byId.lookup id = none := by
        rw [remove_eq he hb, ← heid]
        exact AList.lookup_erase _ _
      obtain ⟨hc, hcon⟩ := newEntry_spec source hm' hid hdsml hfree
      refine ⟨hc, ?_, (remove_limits h).trans (newEntry_limits _ id dsml source)⟩
      rw [hcon, promote, not_mem_contents hm' hfree, remove_contents hm he hb, heid, promote]

/-- A lookup finds what is held under the id, and promotes it. -/
theorem lookup_spec (hm : Consistent m) (id : Bytes) :
    Consistent (toolMemoryLookup m id).1 ∧ SameLimits m (toolMemoryLookup m id).1 ∧
      (((toolMemoryLookup m id).2 = none ∧ (toolMemoryLookup m id).1 = m ∧ ∀ d, (id, d) ∉ contents m) ∨
        ∃ d source, (toolMemoryLookup m id).2 = some (d, source) ∧ (id, d) ∈ contents m ∧
          contents (toolMemoryLookup m id).1 = promote id d (contents m)) := by
  unfold toolMemoryLookup
  cases hi : toolMemoryFindEntry m id with
  | none =>
    refine ⟨hm, ⟨rfl, rfl⟩, .inl ⟨rfl, rfl, fun d hd => ?_⟩⟩
    obtain ⟨h, hh, -⟩ := (mem_contents hm).mp hd
    have hne : id ≠ [] := by
      obtain ⟨e, he, heid⟩ := Option.map_eq_some_iff.mp ((hm.index id h).mp hh)
      rw [← heid]
      exact (hm.entrySize h e he).1
    rw [toolMemoryFindEntry, if_neg hne, hh] at hi
    cases hi
  | some h =>
    have hh : m.byId.lookup id = some h := by
      unfold toolMemoryFindEntry at hi
      split at hi
      next => cases hi
      next => exact hi
    obtain ⟨e, he, heid⟩ := Option.map_eq_some_iff.mp ((hm.index id h).mp hh)
    obtain ⟨b, hb⟩ := hm.home h e he
    simp only [he, hb]
    refine ⟨touch_consistent hm he rfl rfl rfl, ⟨rfl, rfl⟩, .inr ⟨b.dsml, e.source, rfl, ?_, ?_⟩⟩
    · exact (mem_contents hm).mpr ⟨h, hh, heid ▸ pairOf_eq he hb⟩
    · rw [touch_contents hm he rfl rfl hb, heid]

end

end Ds4.Server
