import Mathlib.Data.List.Induction
import Mathlib.Data.List.Sort

/- The `cap` largest entries of a list, found by insertion into a list that never
   grows beyond `cap`.

   The kept list is written from its smallest entry on. `insertBounded_largest`
   is the law for distinct keys: it ends as a suffix of the sorted list, and short
   of all entries only when it is full. `foldl_insertBounded_take` is the law for
   any keys: it ends as the first `cap` entries of the `ranking`, where equal keys
   stay in their order. -/
namespace Ds4

variable {α K : Type} [LinearOrder K] (key : α → K)

/-- One step: a full list drops an entry no larger than its smallest, or its smallest. -/
def insertBounded (cap : Nat) (l : List α) (c : α) : List α :=
  match l with
  | [] => if cap = 0 then [] else [c]
  | d :: l' =>
    if l'.length + 1 < cap then (d :: l').orderedInsert (fun a b => key a ≤ key b) c
    else if key c ≤ key d then d :: l'
    else l'.orderedInsert (fun a b => key a ≤ key b) c

/-- `l` holds the `cap` largest of `seen`: with some smaller ones it is `seen` in order. -/
def Largest (cap : Nat) (seen l : List α) : Prop :=
  ∃ low, (low ++ l).Pairwise (fun a b => key a < key b) ∧ (low ++ l).Perm seen ∧ l.length ≤ cap ∧
    (low ≠ [] → l.length = cap)

variable {key}

theorem pairwise_orderedInsert {c : α} {l : List α} (hl : l.Pairwise fun a b => key a < key b)
    (hc : ∀ a ∈ l, key a ≠ key c) :
    (l.orderedInsert (fun a b => key a ≤ key b) c).Pairwise fun a b => key a < key b := by
  have hle : (l.orderedInsert (fun a b => key a ≤ key b) c).Pairwise fun a b => key a ≤ key b := by
    have : Std.Total fun a b => key a ≤ key b := ⟨fun a b => le_total (key a) (key b)⟩
    have : IsTrans α fun a b => key a ≤ key b := ⟨fun _ _ _ h h' => le_trans h h'⟩
    exact List.Pairwise.orderedInsert c l (hl.imp le_of_lt)
  have hne : (c :: l).Pairwise fun a b => key a ≠ key b :=
    List.pairwise_cons.mpr ⟨fun a ha => (hc a ha).symm, hl.imp ne_of_lt⟩
  have hne' : (l.orderedInsert (fun a b => key a ≤ key b) c).Pairwise fun a b => key a ≠ key b :=
    (List.perm_orderedInsert _ c l).symm.pairwise hne fun h => h.symm
  exact (hle.and hne').imp fun h => lt_of_le_of_ne h.1 h.2

/-- Nothing but what was seen is kept, and nothing twice. -/
theorem insertBounded_subperm (cap : Nat) (l : List α) (c : α) : (insertBounded key cap l c).Subperm (c :: l) := by
  cases l with
  | nil =>
    rw [insertBounded]
    split
    · exact List.nil_subperm
    · exact List.Subperm.refl _
  | cons d l' =>
    rw [insertBounded]
    split_ifs
    · exact (List.perm_orderedInsert _ c (d :: l')).subperm
    · exact (List.sublist_cons_self c (d :: l')).subperm
    · exact (List.perm_orderedInsert _ c l').subperm.trans
        ((List.subperm_cons c).mpr (List.sublist_cons_self d l').subperm)

theorem foldl_insertBounded_subperm (cap : Nat) : ∀ l k : List α,
    (l.foldl (insertBounded key cap) k).Subperm (l ++ k)
  | [], k => List.Subperm.refl k
  | c :: l, k => by
    rw [List.foldl_cons]
    refine (foldl_insertBounded_subperm cap l _).trans ?_
    refine ((List.subperm_append_left l).mpr (insertBounded_subperm cap k c)).trans ?_
    exact List.perm_middle.subperm

theorem insertBounded_largest {cap : Nat} {seen l : List α} {c : α} (h : Largest key cap seen l)
    (hc : ∀ a ∈ seen, key a ≠ key c) : Largest key cap (seen ++ [c]) (insertBounded key cap l c) := by
  obtain ⟨low, hsort, hperm, hcap, hfull⟩ := h
  have hne : ∀ a ∈ low ++ l, key a ≠ key c := fun a ha => hc a (hperm.mem_iff.mp ha)
  have hlow : ∀ a ∈ low, key a ≠ key c := fun a ha => hne a (List.mem_append_left _ ha)
  have hl : ∀ a ∈ l, key a ≠ key c := fun a ha => hne a (List.mem_append_right _ ha)
  obtain ⟨hsl, hsr, hlt⟩ := List.pairwise_append.mp hsort
  cases l with
  | nil =>
    rw [List.append_nil] at hperm
    rw [insertBounded]
    by_cases hzero : cap = 0
    · rw [if_pos hzero]
      refine ⟨low.orderedInsert (fun a b => key a ≤ key b) c, ?_, ?_, Nat.zero_le _, fun _ => hzero.symm⟩
      · rw [List.append_nil]
        exact pairwise_orderedInsert hsl hlow
      · rw [List.append_nil]
        exact (List.perm_orderedInsert _ c low).trans ((List.perm_append_singleton c seen).trans (hperm.symm.cons c)).symm
    · rw [if_neg hzero]
      have hnil : low = [] := by_contra fun h => hzero (hfull h).symm
      subst hnil
      refine ⟨[], List.pairwise_singleton _ _, ?_, by simp; omega, fun h => absurd rfl h⟩
      exact hperm.append_right [c]
  | cons d l' =>
    rw [insertBounded]
    by_cases hroom : l'.length + 1 < cap
    · rw [if_pos hroom]
      have hnil : low = [] := by_contra fun h => by have := hfull h; simp at this; omega
      subst hnil
      refine ⟨[], pairwise_orderedInsert hsr hl, ?_, ?_, fun h => absurd rfl h⟩
      · exact (List.perm_orderedInsert (fun a b => key a ≤ key b) c (d :: l')).trans
          ((List.perm_append_singleton c seen).trans (hperm.symm.cons c)).symm
      · rw [List.orderedInsert_length, List.length_cons]
        omega
    rw [if_neg hroom]
    have hlen : l'.length + 1 = cap := by
      simp at hcap
      omega
    obtain ⟨hd, hsl'⟩ := List.pairwise_cons.mp hsr
    by_cases hsmall : key c ≤ key d
    · rw [if_pos hsmall]
      have hcd : key c < key d := lt_of_le_of_ne hsmall (hl d (by simp)).symm
      have habove : ∀ b ∈ d :: l', key c < key b := by
        intro b hb
        rcases List.mem_cons.mp hb with rfl | hb
        · exact hcd
        · exact hcd.trans (hd b hb)
      refine ⟨low.orderedInsert (fun a b => key a ≤ key b) c, ?_, ?_, hcap, fun _ => hlen⟩
      · refine List.pairwise_append.mpr ⟨pairwise_orderedInsert hsl hlow, hsr, fun a ha b hb => ?_⟩
        rcases (List.mem_orderedInsert _).mp ha with rfl | ha
        · exact habove b hb
        · exact hlt a ha b hb
      · exact ((List.perm_orderedInsert _ c low).append_right _).trans
          ((List.perm_append_singleton c seen).trans (hperm.symm.cons c)).symm
    · rw [if_neg hsmall]
      have hdc : key d < key c := not_le.mp hsmall
      refine ⟨low ++ [d], ?_, ?_, ?_, fun _ => ?_⟩
      · refine List.pairwise_append.mpr ⟨?_, pairwise_orderedInsert hsl' fun a ha => hl a (by simp [ha]), ?_⟩
        · refine List.pairwise_append.mpr ⟨hsl, List.pairwise_singleton _ _, fun a ha b hb => ?_⟩
          rw [List.mem_singleton.mp hb]
          exact hlt a ha d (by simp)
        · intro a ha b hb
          have had : key a ≤ key d := by
            rcases List.mem_append.mp ha with ha | ha
            · exact le_of_lt (hlt a ha d (by simp))
            · rw [List.mem_singleton.mp ha]
          rcases (List.mem_orderedInsert _).mp hb with rfl | hb
          · exact had.trans_lt hdc
          · exact had.trans_lt (hd b hb)
      · have hmove : (low ++ [d] ++ l'.orderedInsert (fun a b => key a ≤ key b) c).Perm (low ++ [d] ++ (c :: l')) :=
          (List.perm_orderedInsert _ c l').append_left _
        refine hmove.trans (List.perm_middle.trans ?_)
        rw [List.append_assoc]
        exact ((List.perm_append_singleton c seen).trans (hperm.symm.cons c)).symm
      · rw [List.orderedInsert_length]
        omega
      · rw [List.orderedInsert_length]
        exact hlen

theorem foldl_insertBounded (cap : Nat) : ∀ (rest seen l : List α), Largest key cap seen l →
    ((seen ++ rest).map key).Nodup → Largest key cap (seen ++ rest) (rest.foldl (insertBounded key cap) l)
  | [], seen, l, h, _ => by rwa [List.append_nil]
  | c :: rest, seen, l, h, hnodup => by
    have hsplit : seen ++ c :: rest = seen ++ [c] ++ rest := by rw [List.append_assoc, List.singleton_append]
    rw [hsplit] at hnodup ⊢
    rw [List.foldl_cons]
    refine foldl_insertBounded cap rest _ _ (insertBounded_largest h fun a ha heq => ?_) hnodup
    rw [List.map_append, List.nodup_append, List.map_append, List.nodup_append] at hnodup
    exact hnodup.1.2.2 (key a) (List.mem_map_of_mem ha) (key c) (by simp) heq

theorem largest_of_foldl (cap : Nat) {l : List α} (h : (l.map key).Nodup) :
    Largest key cap l (l.foldl (insertBounded key cap) []) :=
  foldl_insertBounded cap l [] [] ⟨[], List.Pairwise.nil, List.Perm.nil, Nat.zero_le _, fun h => absurd rfl h⟩ h

/-! ## Equal keys -/

section
variable (key)

/-- The list in descending order, of equal keys the first one first. -/
def ranking (l : List α) : List α := l.insertionSort fun a b => key b ≤ key a

/-- `c` goes behind the entries that are no smaller. -/
def rankLast (c : α) (l : List α) : List α := l.orderedInsert (fun a b => key b < key a) c

end

theorem orderedInsert_rankLast (a c : α) (l : List α) :
    (rankLast key c l).orderedInsert (fun a b => key b ≤ key a) a =
      rankLast key c (l.orderedInsert (fun a b => key b ≤ key a) a) := by
  induction l with
  | nil =>
    by_cases h : key c ≤ key a
    · simp [rankLast, h, not_lt.mpr h]
    · simp [rankLast, h, not_le.mp h]
  | cons d l ih =>
    rw [rankLast] at ih ⊢
    rw [rankLast] at ih ⊢
    simp only [List.orderedInsert_cons]
    by_cases hdc : key d < key c
    · by_cases hda : key d ≤ key a
      · by_cases hca : key c ≤ key a
        · simp [hdc, hda, hca, not_lt.mpr hca]
        · simp [hdc, hda, hca, not_le.mp hca]
      · have hca : ¬ key c ≤ key a := fun h => hda (hdc.le.trans h)
        simp [hdc, hda, hca]
    · by_cases hda : key d ≤ key a
      · have hac : ¬ key a < key c := fun h => hdc (hda.trans_lt h)
        simp [hdc, hda, hac]
      · simp [hdc, hda, ih]

theorem ranking_concat (l : List α) (c : α) : ranking key (l ++ [c]) = rankLast key c (ranking key l) := by
  induction l with
  | nil => rfl
  | cons a l ih =>
    rw [ranking] at ih ⊢
    rw [List.cons_append, List.insertionSort_cons, ih, orderedInsert_rankLast, ranking, ranking, List.insertionSort_cons]

theorem pairwise_ranking (l : List α) : (ranking key l).Pairwise fun a b => key b ≤ key a := by
  have : Std.Total fun a b : α => key b ≤ key a := ⟨fun a b => le_total _ _⟩
  have : IsTrans α fun a b => key b ≤ key a := ⟨fun _ _ _ h h' => le_trans h' h⟩
  exact List.pairwise_insertionSort _ l

theorem ranking_perm (l : List α) : (ranking key l).Perm l := List.perm_insertionSort _ l

theorem orderedInsert_append {r : α → α → Prop} [DecidableRel r] {c d : α} (h : r c d) (tail : List α) (l : List α) :
    (l ++ d :: tail).orderedInsert r c = l.orderedInsert r c ++ d :: tail := by
  induction l with
  | nil => simp [h]
  | cons e l ih =>
    rw [List.cons_append, List.orderedInsert_cons, List.orderedInsert_cons, ih]
    split_ifs
    · rfl
    · rfl

theorem orderedInsert_behind {r : α → α → Prop} [DecidableRel r] {c : α} (tail : List α) {l : List α}
    (h : ∀ d ∈ l, ¬r c d) : (l ++ tail).orderedInsert r c = l ++ tail.orderedInsert r c := by
  induction l with
  | nil => rfl
  | cons e l ih =>
    rw [List.cons_append, List.orderedInsert_cons, if_neg (h e (by simp)), ih fun d hd => h d (by simp [hd])]
    rfl

/-- Read from its end, the insertion of `insertBounded` is `rankLast`. -/
theorem orderedInsert_reverse (c : α) {l : List α} (hl : l.Pairwise fun a b => key b ≤ key a) :
    l.reverse.orderedInsert (fun a b => key a ≤ key b) c = (rankLast key c l).reverse := by
  induction l with
  | nil => rfl
  | cons d l ih =>
    obtain ⟨hd, hl⟩ := List.pairwise_cons.mp hl
    rw [rankLast, List.orderedInsert_cons]
    by_cases h : key d < key c
    · have hbelow : ∀ e ∈ (d :: l).reverse, ¬key c ≤ key e := by
        intro e he
        rcases List.mem_cons.mp (List.mem_reverse.mp he) with rfl | he
        · exact not_le.mpr h
        · exact not_le.mpr ((hd e he).trans_lt h)
      have hend := orderedInsert_behind (r := fun a b => key a ≤ key b) [] hbelow
      rw [List.append_nil] at hend
      rw [if_pos h, hend, List.reverse_cons (a := c)]
      rfl
    · rw [if_neg h, List.reverse_cons, List.reverse_cons, orderedInsert_append (r := fun a b => key a ≤ key b) (not_lt.mp h), ih hl]
      rfl

/-- One insertion into the `cap` first of a ranking. -/
theorem insertBounded_take (cap : Nat) (c : α) {l : List α} (hl : l.Pairwise fun a b => key b ≤ key a) :
    insertBounded key cap (l.take cap).reverse c = ((rankLast key c l).take cap).reverse := by
  rcases Nat.lt_or_ge l.length cap with hroom | hfull
  · have hlen : (rankLast key c l).length ≤ cap := by
      rw [rankLast, List.orderedInsert_length]
      exact hroom
    rw [List.take_of_length_le hroom.le, List.take_of_length_le hlen, ← orderedInsert_reverse c hl]
    cases hrev : l.reverse with
    | nil => rw [insertBounded, if_neg (by omega), List.orderedInsert_nil]
    | cons d l' =>
      have hd := congrArg List.length hrev
      rw [List.length_reverse, List.length_cons] at hd
      rw [insertBounded, if_pos (by omega)]
  cases cap with
  | zero => rfl
  | succ n =>
    -- `d` is the smallest entry that is kept
    have hsplit : l = l.take n ++ l[n] :: l.drop (n + 1) := by
      rw [List.getElem_cons_drop, List.take_append_drop]
    have htake : (l.take (n + 1)).reverse = l[n] :: (l.take n).reverse := by
      rw [List.take_succ_eq_append_getElem hfull, List.reverse_append]
      rfl
    have hg : (l.take n).length = n := List.length_take_of_le (by omega)
    have hsorted := hl.sublist (List.take_sublist n l)
    rw [htake, insertBounded, List.length_reverse, hg, if_neg (lt_irrefl _)]
    split_ifs with h
    · have hbehind : ∀ d ∈ l.take (n + 1), ¬key d < key c := by
        intro d hd
        rw [List.take_succ_eq_append_getElem hfull] at hd
        rcases List.mem_append.mp hd with hd | hd
        · rw [hsplit] at hl
          exact not_lt.mpr (h.trans ((List.pairwise_append.mp hl).2.2 d hd _ List.mem_cons_self))
        · rw [List.mem_singleton.mp hd]
          exact not_lt.mpr h
      have hkeep : rankLast key c l = l.take (n + 1) ++ rankLast key c (l.drop (n + 1)) := by
        conv_lhs => rw [← List.take_append_drop (n + 1) l]
        exact orderedInsert_behind _ hbehind
      rw [hkeep, List.take_left' (List.length_take_of_le hfull), htake]
    · have hinto : rankLast key c l = rankLast key c (l.take n) ++ l[n] :: l.drop (n + 1) := by
        conv_lhs => rw [hsplit]
        exact orderedInsert_append (r := fun a b => key b < key a) (not_le.mp h) _ _
      rw [hinto, List.take_left' (by rw [rankLast, List.orderedInsert_length, hg]), ← orderedInsert_reverse c hsorted]

/-- What is kept are the `cap` first of the ranking. -/
theorem foldl_insertBounded_take (cap : Nat) (l : List α) :
    l.foldl (insertBounded key cap) [] = ((ranking key l).take cap).reverse := by
  induction l using List.reverseRecOn with
  | nil => simp [ranking]
  | append_singleton l c ih =>
    rw [List.foldl_append, ih, List.foldl_cons, List.foldl_nil, insertBounded_take cap c (pairwise_ranking l),
      ranking_concat]

/-- Two orders that agree on a list and its image rank both alike. -/
theorem ranking_map {β K' : Type} [LinearOrder K'] {key' : β → K'} {f : β → α} {l : List β}
    (h : ∀ a ∈ l, ∀ b ∈ l, key' b ≤ key' a ↔ key (f b) ≤ key (f a)) : ranking key (l.map f) = (ranking key' l).map f :=
  (List.map_insertionSort _ _ f l h).symm

end Ds4
