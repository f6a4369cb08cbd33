import Mathlib.Data.List.Basic

/- Text with marks in it, and a scanner that finds the marks by their spelling.

   Marked text is a list of marks (`inl`) and letters (`inr`). `spell` writes a mark as
   its literal; `scan` reads left to right, taking a mark wherever a literal starts. The
   one law a spelling has: the scan of the spelled text is the marked text again exactly
   when no literal starts at a letter (`scan_spell_iff`). -/
namespace Marked
variable {α β : Type}

def spell (lit : β → List α) (items : List (β ⊕ α)) : List α :=
  items.flatMap fun
    | .inl m => lit m
    | .inr c => [c]

/-- `find` gives the literal at the head of a text and its mark; `fuel` rounds at most. -/
def scan (find : List α → Option (List α × β)) : Nat → List α → List (β ⊕ α)
  | _, [] => []
  | 0, s => s.map .inr
  | fuel + 1, c :: s =>
    match find (c :: s) with
    | some (text, m) => .inl m :: scan find fuel ((c :: s).drop text.length)
    | none => .inr c :: scan find fuel s

section
variable {lit : β → List α} {find : List α → Option (List α × β)}

@[simp] theorem spell_nil : spell lit [] = [] := rfl

@[simp] theorem spell_inl (m : β) (items : List (β ⊕ α)) : spell lit (.inl m :: items) = lit m ++ spell lit items := rfl

@[simp] theorem spell_inr (c : α) (items : List (β ⊕ α)) : spell lit (.inr c :: items) = c :: spell lit items := rfl

@[simp] theorem spell_append (a b : List (β ⊕ α)) : spell lit (a ++ b) = spell lit a ++ spell lit b :=
  List.flatMap_append

@[simp] theorem spell_letters (s : List α) : spell lit (s.map .inr) = s := by
  induction s with
  | nil => rfl
  | cons c s ih => rw [List.map_cons, spell_inr, ih]

/-- What `find` finds is the spelling of a mark. -/
def Finds (lit : β → List α) (find : List α → Option (List α × β)) : Prop :=
  ∀ s text m, find s = some (text, m) → text ≠ [] ∧ text = lit m ∧ text <+: s

theorem spell_scan (hf : Finds lit find) : ∀ (fuel : Nat) (s : List α), s.length ≤ fuel → spell lit (scan find fuel s) = s
  | 0, [], _ => rfl
  | _ + 1, [], _ => rfl
  | 0, _ :: _, h => by simp at h
  | fuel + 1, c :: s, h => by
    rw [List.length_cons] at h
    rw [scan]
    cases hs : find (c :: s) with
    | none =>
      dsimp only
      rw [spell_inr, spell_scan hf fuel s (by omega)]
    | some r =>
      obtain ⟨text, m⟩ := r
      obtain ⟨hne, htext, rest, hrest⟩ := hf _ _ _ hs
      have hpos := List.length_pos_iff.mpr hne
      have hlen : text.length + rest.length = s.length + 1 := by
        rw [← List.length_append, hrest, List.length_cons]
      dsimp only
      rw [← hrest, List.drop_left, spell_inl, spell_scan hf fuel rest (by omega), ← htext]

/-- No literal starts at a letter. -/
def Quiet (lit : β → List α) (find : List α → Option (List α × β)) (items : List (β ⊕ α)) : Prop :=
  ∀ pre c post, items = pre ++ .inr c :: post → find (c :: spell lit post) = none

theorem Quiet.tail {x : β ⊕ α} {items : List (β ⊕ α)} (h : Quiet lit find (x :: items)) : Quiet lit find items :=
  fun pre c post hi => h (x :: pre) c post (by rw [hi, List.cons_append])

theorem quiet_inl {m : β} {items : List (β ⊕ α)} : Quiet lit find (.inl m :: items) ↔ Quiet lit find items := by
  refine ⟨Quiet.tail, fun h pre c post hi => ?_⟩
  cases pre with
  | nil => cases hi
  | cons x pre =>
    rw [List.cons_append, List.cons.injEq] at hi
    exact h pre c post hi.2

theorem quiet_inr {c : α} {items : List (β ⊕ α)} :
    Quiet lit find (.inr c :: items) ↔ find (c :: spell lit items) = none ∧ Quiet lit find items := by
  refine ⟨fun h => ⟨h [] c items rfl, h.tail⟩, fun h pre d post hi => ?_⟩
  cases pre with
  | nil =>
    rw [List.nil_append, List.cons.injEq, Sum.inr.injEq] at hi
    rw [← hi.1, ← hi.2]
    exact h.1
  | cons x pre =>
    rw [List.cons_append, List.cons.injEq] at hi
    exact h.2 pre d post hi.2

/-- The marks of the text are found where they are spelled. -/
def Marks (lit : β → List α) (find : List α → Option (List α × β)) (items : List (β ⊕ α)) : Prop :=
  ∀ m, .inl m ∈ items → lit m ≠ [] ∧ ∀ rest, find (lit m ++ rest) = some (lit m, m)

theorem scan_spell_iff : ∀ (items : List (β ⊕ α)) (fuel : Nat), Marks lit find items → (spell lit items).length ≤ fuel →
    (scan find fuel (spell lit items) = items ↔ Quiet lit find items)
  | [], fuel, _, _ => by
    have hscan : scan find fuel [] = ([] : List (β ⊕ α)) := by cases fuel <;> rfl
    rw [spell_nil, hscan]
    exact ⟨fun _ pre c post hi => by simp at hi, fun _ => rfl⟩
  | .inl m :: items, fuel, hm, hfuel => by
    obtain ⟨hne, hfind⟩ := hm m List.mem_cons_self
    have ih := scan_spell_iff items (fuel - 1) (fun n hn => hm n (List.mem_cons_of_mem _ hn))
    rw [spell_inl, List.length_append] at hfuel
    have hpos := List.length_pos_iff.mpr hne
    obtain ⟨c, l, hcl⟩ := List.exists_cons_of_ne_nil hne
    obtain ⟨k, rfl⟩ := Nat.exists_eq_succ_of_ne_zero (show fuel ≠ 0 by omega)
    have hstep : scan find (k + 1) (lit m ++ spell lit items) = .inl m :: scan find k (spell lit items) := by
      have hf := hfind (spell lit items)
      rw [hcl, List.cons_append] at hf ⊢
      rw [scan, hf, ← List.cons_append]
      dsimp only
      rw [List.drop_left]
    rw [spell_inl, hstep, List.cons.injEq, quiet_inl, ← ih (by omega), Nat.succ_sub_one]
    exact and_iff_right rfl
  | .inr c :: items, fuel, hm, hfuel => by
    rw [spell_inr, List.length_cons] at hfuel
    obtain ⟨k, rfl⟩ := Nat.exists_eq_succ_of_ne_zero (show fuel ≠ 0 by omega)
    have ih := scan_spell_iff items k (fun n hn => hm n (List.mem_cons_of_mem _ hn)) (by omega)
    rw [spell_inr, quiet_inr, scan]
    cases hs : find (c :: spell lit items) with
    | none =>
      dsimp only
      simp [ih]
    | some r =>
      -- a literal here turns the letter into a mark
      dsimp only
      exact ⟨fun h => by simp at h, fun h => by simp at h⟩

end
end Marked
