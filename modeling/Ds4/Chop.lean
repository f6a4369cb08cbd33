import Ds4.Bytes

/- A list cut into pieces by a function that says how long the next piece is.

   `chop_flatMap`: cutting each piece of a first pass by a second one is one pass,
   where the first goes on within a piece as if nothing had been taken.
   `chop_eq_iff`: two passes cut a list alike, as far as the images of the pieces
   show, when they agree at every place the first one comes to. -/
namespace Ds4

variable {α β : Type}

/-- The pieces, `fuel` of them at most. -/
def chop (f : List α → Nat) : Nat → List α → List (List α)
  | 0, _ => []
  | _, [] => []
  | fuel + 1, s => s.take (f s) :: chop f fuel (s.drop (f s))

/-- A piece is not empty and within the list. -/
def Cuts (f : List α → Nat) : Prop := ∀ s, s ≠ [] → 0 < f s ∧ f s ≤ s.length

theorem chop_nil (f : List α → Nat) (fuel : Nat) : chop f fuel [] = [] := by cases fuel <;> rfl

theorem chop_succ (f : List α → Nat) (fuel : Nat) {s : List α} (hs : s ≠ []) :
    chop f (fuel + 1) s = s.take (f s) :: chop f fuel (s.drop (f s)) := by
  cases s with
  | nil => exact absurd rfl hs
  | cons c s => rfl

theorem take_ne_nil {n : Nat} {s : List α} (hn : 0 < n) (hs : s ≠ []) : s.take n ≠ [] := by
  rw [ne_eq, List.take_eq_nil_iff, not_or]
  exact ⟨hn.ne', hs⟩

section
variable {f g : List α → Nat} (hf : Cuts f)
include hf

theorem Cuts.drop_lt {s : List α} (hs : s ≠ []) : (s.drop (f s)).length < s.length := by
  have := hf s hs
  rw [List.length_drop]
  omega

theorem chop_fuel : ∀ {n m : Nat} {s : List α}, s.length ≤ n → s.length ≤ m → chop f n s = chop f m s
  | 0, m, s, hn, _ => by
    obtain rfl := List.eq_nil_of_length_eq_zero (Nat.le_zero.mp hn)
    rw [chop_nil, chop_nil]
  | n + 1, 0, s, _, hm => by
    obtain rfl := List.eq_nil_of_length_eq_zero (Nat.le_zero.mp hm)
    rw [chop_nil, chop_nil]
  | n + 1, m + 1, s, hn, hm => by
    by_cases hs : s = []
    · rw [hs, chop_nil, chop_nil]
    · have := hf.drop_lt hs
      rw [chop_succ f n hs, chop_succ f m hs, chop_fuel (n := n) (m := m) (by omega) (by omega)]

/-- All the pieces. -/
theorem chop_cons {s : List α} (hs : s ≠ []) :
    chop f s.length s = s.take (f s) :: chop f (s.drop (f s)).length (s.drop (f s)) := by
  have hlen := List.length_pos_iff.mpr hs
  obtain ⟨n, hn⟩ := Nat.exists_eq_succ_of_ne_zero hlen.ne'
  have := hf.drop_lt hs
  rw [hn, Nat.succ_eq_add_one, chop_succ f n hs, chop_fuel hf (by omega) (Nat.le_refl _)]

theorem chop_flatMap (hg : Cuts g) (hcont : ∀ s, s ≠ [] → g (s.take (f s)) < f s →
    f (s.drop (g (s.take (f s)))) = f s - g (s.take (f s))) (s : List α) :
    (chop f s.length s).flatMap (fun t => chop g t.length t) = chop (fun s => g (s.take (f s))) s.length s := by
  have hcuts : Cuts fun s => g (s.take (f s)) := by
    intro s hs
    have h1 := hf s hs
    have h2 := hg (s.take (f s)) (take_ne_nil h1.1 hs)
    rw [List.length_take_of_le h1.2] at h2
    exact ⟨h2.1, h2.2.trans h1.2⟩
  induction hn : s.length using Nat.strongRecOn generalizing s with
  | ind n ih =>
    subst hn
    by_cases hs : s = []
    · rw [hs, List.length_nil, chop_nil, chop_nil]
      rfl
    have hfs := hf s hs
    have htake : s.take (f s) ≠ [] := take_ne_nil hfs.1 hs
    have hgs := hg (s.take (f s)) htake
    have hlen : (s.take (f s)).length = f s := List.length_take_of_le hfs.2
    rw [hlen] at hgs
    have ih' := ih _ (hcuts.drop_lt hs) (s.drop (g (s.take (f s)))) rfl
    rw [chop_cons hcuts hs, chop_cons hf hs, List.flatMap_cons, chop_cons hg htake, ← ih', List.take_take,
      Nat.min_eq_left hgs.2, List.cons_append]
    congr 1
    rcases Nat.lt_or_ge (g (s.take (f s))) (f s) with hlt | hge
    · have hdrop : s.drop (g (s.take (f s))) ≠ [] := by
        rw [ne_eq, List.drop_eq_nil_iff]
        omega
      rw [chop_cons hf hdrop, List.flatMap_cons, hcont s hs hlt, List.drop_drop, List.drop_take,
        Nat.add_sub_cancel' hgs.2]
    · have heq : g (s.take (f s)) = f s := by omega
      rw [heq, List.drop_eq_nil_of_le (by omega : (s.take (f s)).length ≤ f s), List.length_nil, chop_nil, List.nil_append]

end

/-- Two lengths agree at every place the first comes to. -/
def Agree (f g : List α → Nat) : Nat → List α → Prop
  | 0, _ => True
  | fuel + 1, s => s = [] ∨ f s = g s ∧ Agree f g fuel (s.drop (f s))

theorem agree_map (h : β → α) {f g : List α → Nat} : ∀ (n : Nat) (s : List β),
    Agree (fun s => f (s.map h)) (fun s => g (s.map h)) n s ↔ Agree f g n (s.map h)
  | 0, _ => Iff.rfl
  | n + 1, s => by
    rw [Agree, Agree, agree_map h n, List.map_drop, List.map_eq_nil_iff]

theorem chop_eq_iff {f g : List α → Nat} (hf : Cuts f) (hg : Cuts g) {h : List α → β}
    (hinj : ∀ {s : List α} {n m : Nat}, n ≤ s.length → m ≤ s.length → h (s.take n) = h (s.take m) → n = m) :
    ∀ (n : Nat) (s : List α), (chop f n s).map h = (chop g n s).map h ↔ Agree f g n s
  | 0, s => iff_of_true rfl trivial
  | n + 1, s => by
    rw [Agree]
    by_cases hs : s = []
    · exact iff_of_true (by rw [hs, chop_nil, chop_nil]) (.inl hs)
    rw [chop_succ f n hs, chop_succ g n hs, List.map_cons, List.map_cons, List.cons.injEq, or_iff_right hs]
    constructor
    · rintro ⟨heq, htail⟩
      have hlen := hinj (hf s hs).2 (hg s hs).2 heq
      rw [← hlen] at htail
      exact ⟨hlen, (chop_eq_iff hf hg hinj n _).mp htail⟩
    · rintro ⟨heq, htail⟩
      rw [← heq]
      exact ⟨rfl, (chop_eq_iff hf hg hinj n _).mpr htail⟩

end Ds4
