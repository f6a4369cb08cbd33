import Mathlib.Data.List.Nodup
import Mathlib.Logic.Function.Basic
import Ds4.Bytes

/- Buffers of a fixed size, and loaders that fill them from a file.

   A `Buf n` is `n` bytes; `write` puts bytes into it in place, and `span` reads
   them. A `Loader σ` is a program over a file and a state `σ` that keeps what it
   has done when it fails. `Reads r s b a s'` is the one law a loader has here:
   in front of any tail it takes exactly the bytes `b` and goes from `s` to `s'`
   with the value `a`. The law composes along `bind`, `forM` and `zoom`, so the
   law of a reader follows the shape of its writer. `Scans` is the law of a
   loader on any input, for those that leave the state alone: on which inputs it
   succeeds, with what, and how much it takes.

   `copyOut` and `copyIn` are the two directions of a copy through a small
   buffer; what the buffer's size is, cannot be seen in the result. -/
namespace Ds4
open Bytes

def span (b : Bytes) (off n : Nat) : Bytes := (b.drop off).take n

theorem length_span {b : Bytes} {off n : Nat} (h : off + n ≤ b.length) : (span b off n).length = n := by
  simp [span]
  omega

theorem span_add (b : Bytes) (off m n : Nat) : span b off (m + n) = span b off m ++ span b (off + m) n := by
  simp [span, List.take_add]

theorem drop_eq_span (b : Bytes) (off : Nat) {n m : Nat} (h : off + n = m) : b.drop off = span b off n ++ b.drop m := by
  rw [← h, ← List.drop_drop, span, List.take_append_drop]

@[simp] theorem span_zero (b : Bytes) (off : Nat) : span b off 0 = [] := by simp [span]

/-- `n` bytes of storage. -/
@[ext] structure Buf (n : Nat) where
  bytes : Bytes
  size : bytes.length = n

namespace Buf
variable {n : Nat}

/-- `n` zero bytes. -/
def zero (n : Nat) : Buf n := ⟨List.replicate n 0, List.length_replicate⟩

/-- Bytes put into the storage in place; out of range nothing happens. -/
def write (t : Buf n) (off : Nat) (b : Bytes) : Buf n :=
  if h : off + b.length ≤ n then
    ⟨t.bytes.take off ++ b ++ t.bytes.drop (off + b.length), by
      have := t.size
      simp
      omega⟩
  else t

theorem write_val {t : Buf n} {off : Nat} {b : Bytes} (h : off + b.length ≤ n) :
    (t.write off b).bytes = t.bytes.take off ++ b ++ t.bytes.drop (off + b.length) := by
  rw [write, dif_pos h]

@[simp] theorem write_nil (t : Buf n) (off : Nat) : t.write off [] = t := by
  apply Buf.ext
  by_cases h : off + ([] : Bytes).length ≤ n
  · rw [write_val h]
    simp
  · rw [write, dif_neg h]

theorem span_write_self {t : Buf n} {off : Nat} {b : Bytes} (h : off + b.length ≤ n) :
    span (t.write off b).bytes off b.length = b := by
  have hoff : (t.bytes.take off).length = off := by
    have := t.size
    simp
    omega
  rw [write_val h, span, List.append_assoc, List.drop_append_of_le_length (by omega),
    List.drop_of_length_le (by omega), List.nil_append, List.take_left]

theorem span_write_other {t : Buf n} {off off' k : Nat} {b : Bytes}
    (h : off' + k ≤ off ∨ off + b.length ≤ off') : span (t.write off b).bytes off' k = span t.bytes off' k := by
  by_cases hfit : off + b.length ≤ n
  · have ht := t.size
    have hoff : (t.bytes.take off).length = off := by
      simp
      omega
    rw [write_val hfit, span, span]
    rcases h with h | h
    · rw [List.append_assoc, List.drop_append_of_le_length (by omega), List.take_append_of_le_length (by simp; omega),
        List.drop_take, List.take_take, Nat.min_eq_left (by omega)]
    · rw [List.drop_append, List.drop_of_length_le (by simp; omega), List.nil_append, List.drop_drop]
      congr 2
      simp
      omega
  · rw [write, dif_neg hfit]

theorem write_append {t : Buf n} {off : Nat} {a b : Bytes} (h : off + (a ++ b).length ≤ n) :
    (t.write off a).write (off + a.length) b = t.write off (a ++ b) := by
  have ht := t.size
  rw [List.length_append] at h
  have hoff : (t.bytes.take off).length = off := by
    simp
    omega
  apply Buf.ext
  rw [write_val (by omega), write_val (by omega), write_val (by simp; omega)]
  have htake : List.take (off + a.length) (t.bytes.take off ++ a ++ t.bytes.drop (off + a.length)) = t.bytes.take off ++ a := by
    rw [List.take_left']
    simp
    omega
  have hdrop : List.drop (off + a.length + b.length) (t.bytes.take off ++ a ++ t.bytes.drop (off + a.length)) =
      t.bytes.drop (off + (a ++ b).length) := by
    rw [List.drop_append, List.drop_of_length_le (by simp; omega), List.nil_append, List.drop_drop]
    congr 1
    simp
    omega
  rw [htake, hdrop]
  simp

end Buf

/-! ## Loaders -/

/-- What a reader may still take, and the file from there. -/
structure Input where
  remaining : Nat
  rest : Bytes

/-- A program over a file and a state, which both stay as they are at a failure. -/
abbrev Loader (σ : Type) := EStateM String (σ × Input)

variable {σ τ α β ι : Type}

/-- Run `r` on a part of the state. -/
def Loader.zoom (get : σ → τ) (put : τ → σ → σ) (r : Loader τ α) : Loader σ α := fun x =>
  match r (get x.1, x.2) with
  | .ok a y => .ok a (put y.1 x.1, y.2)
  | .error e y => .error e (put y.1 x.1, y.2)

/-- Change the state and read nothing. -/
def Loader.update (f : σ → σ) : Loader σ Unit := modify fun x => (f x.1, x.2)

/-- Fail with `e` where `c` holds. -/
def Loader.refuse (c : Prop) [Decidable c] (e : String) : Loader σ Unit := if c then throw e else pure ()

/-- `n` values in a row. -/
def Loader.times (n : Nat) (r : Loader σ α) : Loader σ (List α) :=
  match n with
  | 0 => pure []
  | n + 1 => do
    let a ← r
    let as ← Loader.times n r
    return a :: as

/-- In front of any tail, `r` takes exactly `b` and goes from `s` to `s'` with value `a`. -/
def Reads (r : Loader σ α) (s : σ) (b : Bytes) (a : α) (s' : σ) : Prop :=
  ∀ n tail, r (s, ⟨b.length + n, b ++ tail⟩) = .ok a (s', ⟨n, tail⟩)

namespace Reads

theorem pure (a : α) (s : σ) : Reads (Pure.pure a : Loader σ α) s [] a s := by
  intro n tail
  simp [Pure.pure, EStateM.pure]

theorem update (f : σ → σ) (s : σ) : Reads (Loader.update f) s [] () (f s) := by
  intro n tail
  simp only [List.length_nil, Nat.zero_add, List.nil_append]
  rfl

theorem bind {r : Loader σ α} {f : α → Loader σ β} {s s' s'' : σ} {b c : Bytes} {a : α} {a' : β}
    (hr : Reads r s b a s') (hf : Reads (f a) s' c a' s'') : Reads (r >>= f) s (b ++ c) a' s'' := by
  intro n tail
  have h := hr (c.length + n) (c ++ tail)
  rw [← Nat.add_assoc, ← List.append_assoc, ← List.length_append] at h
  show EStateM.bind r f _ = _
  rw [EStateM.bind, h]
  exact hf n tail

/-- `bind` where the first part reads nothing. -/
theorem bind_nil {r : Loader σ α} {f : α → Loader σ β} {s s' s'' : σ} {c : Bytes} {a : α} {a' : β}
    (hr : Reads r s [] a s') (hf : Reads (f a) s' c a' s'') : Reads (r >>= f) s c a' s'' := by
  have h := bind hr hf
  rwa [List.nil_append] at h

/-- `bind` where the last part reads nothing. -/
theorem bind_last {r : Loader σ α} {f : α → Loader σ β} {s s' s'' : σ} {b : Bytes} {a : α} {a' : β}
    (hr : Reads r s b a s') (hf : Reads (f a) s' [] a' s'') : Reads (r >>= f) s b a' s'' := by
  have h := bind hr hf
  rwa [List.append_nil] at h

theorem zoom {get : σ → τ} {put : τ → σ → σ} {r : Loader τ α} {s : σ} {b : Bytes} {a : α} {t' : τ}
    (h : Reads r (get s) b a t') : Reads (Loader.zoom get put r) s b a (put t' s) := by
  intro n tail
  rw [Loader.zoom, h n tail]

theorem passes {c : Prop} [Decidable c] {e : String} (hc : ¬c) (s : σ) : Reads (Loader.refuse c e) s [] () s := by
  rw [Loader.refuse, if_neg hc]
  exact pure () s

theorem forM {l : List ι} {f : ι → Loader σ Unit} {b : ι → Bytes} {t : ι → σ → σ}
    (h : ∀ i ∈ l, ∀ s, Reads (f i) s (b i) () (t i s)) :
    ∀ s, Reads (l.forM f) s (l.flatMap b) () (l.foldl (fun s i => t i s) s) := by
  induction l with
  | nil => exact fun s => pure () s
  | cons i l ih =>
    intro s
    rw [List.flatMap_cons, List.foldl_cons]
    show Reads (f i >>= fun _ => l.forM f) s _ _ _
    exact bind (h i (by simp) s) (ih (fun j hj => h j (by simp [hj])) _)

theorem mapM {l : List ι} {f : ι → Loader σ α} {b : ι → Bytes} {v : ι → α}
    (h : ∀ i ∈ l, ∀ s, Reads (f i) s (b i) (v i) s) :
    ∀ s, Reads (l.mapM f) s (l.flatMap b) (l.map v) s := by
  induction l with
  | nil => exact fun s => pure [] s
  | cons i l ih =>
    intro s
    rw [List.mapM_cons, List.flatMap_cons, List.map_cons]
    apply bind (h i (by simp) s)
    exact bind_last (ih (fun j hj => h j (by simp [hj])) s) (pure (v i :: l.map v) s)

theorem times {γ : Type} {r : Loader σ α} {s : σ} {e : γ → Bytes} {v : γ → α} {l : List γ}
    (h : ∀ x ∈ l, Reads r s (e x) (v x) s) :
    Reads (Loader.times l.length r) s (l.flatMap e) (l.map v) s := by
  induction l with
  | nil => exact pure [] s
  | cons x l ih =>
    rw [List.flatMap_cons, List.map_cons, List.length_cons, Loader.times]
    apply bind (h x (by simp))
    exact bind_last (ih fun y hy => h y (by simp [hy])) (pure (v x :: l.map v) s)

end Reads

/-- `r` takes exactly `b` where that is all it may take. -/
def ReadsAll (r : Loader σ α) (s : σ) (b : Bytes) (a : α) (s' : σ) : Prop :=
  ∀ tail, r (s, ⟨b.length, b ++ tail⟩) = .ok a (s', ⟨0, tail⟩)

theorem Reads.bind_all {r : Loader σ α} {f : α → Loader σ β} {s s' s'' : σ} {b c : Bytes} {a : α} {a' : β}
    (hr : Reads r s b a s') (hf : ReadsAll (f a) s' c a' s'') : ReadsAll (r >>= f) s (b ++ c) a' s'' := by
  intro tail
  have h := hr c.length (c ++ tail)
  rw [← List.append_assoc, ← List.length_append] at h
  show EStateM.bind r f _ = _
  rw [EStateM.bind, h]
  exact hf tail

theorem Reads.bind_fails {r : Loader σ α} {f : α → Loader σ β} {s s' s'' : σ} {b c : Bytes} {a : α} {e : String}
    {x : Input} {tail : Bytes} (hr : Reads r s b a s') (hf : f a (s', ⟨c.length, c ++ tail⟩) = .error e (s'', x)) :
    (r >>= f) (s, ⟨(b ++ c).length, b ++ c ++ tail⟩) = .error e (s'', x) := by
  have h := hr c.length (c ++ tail)
  rw [← List.append_assoc, ← List.length_append] at h
  show EStateM.bind r f _ = _
  rw [EStateM.bind, h]
  exact hf

/-! ## Loaders that only look -/

/-- The input after `n` more bytes. -/
def Input.skip (x : Input) (n : Nat) : Input := ⟨x.remaining - n, x.rest.drop n⟩

/-- `n` more bytes may be taken, and are there. -/
def Input.Holds (x : Input) (n : Nat) : Prop := n ≤ x.remaining ∧ n ≤ x.rest.length

theorem Input.skip_skip (x : Input) (n k : Nat) : (x.skip n).skip k = x.skip (n + k) := by
  simp [skip, Nat.sub_sub]

theorem Input.skip_zero (x : Input) : x.skip 0 = x := rfl

theorem Input.holds_add (x : Input) (n k : Nat) : x.Holds (n + k) ↔ x.Holds n ∧ (x.skip n).Holds k := by
  simp only [Holds, skip, List.length_drop]
  omega

/-- `r` leaves the state alone: on a good input it takes `n` bytes for the value
    `v`, on any other it fails. -/
structure Scans (r : Loader σ α) (good : Input → Prop) (v : Input → α) (n : Input → Nat) : Prop where
  ok : ∀ s x, good x → r (s, x) = .ok (v x) (s, x.skip (n x))
  fails : ∀ s x, ¬good x → ∃ e y, r (s, x) = .error e (s, y)

namespace Scans

theorem pure (a : α) : Scans (Pure.pure a : Loader σ α) (fun _ => True) (fun _ => a) fun _ => 0 :=
  ⟨fun _ _ _ => rfl, fun _ _ h => absurd trivial h⟩

theorem refuse (c : Prop) [Decidable c] (e : String) :
    Scans (Loader.refuse c e : Loader σ Unit) (fun _ => ¬c) (fun _ => ()) fun _ => 0 := by
  constructor
  · intro s x hc
    rw [Loader.refuse, if_neg hc]
    rfl
  · intro s x hc
    refine ⟨e, x, ?_⟩
    rw [Loader.refuse, if_pos (not_not.mp hc)]
    rfl

theorem bind {r : Loader σ α} {f : α → Loader σ β} {good : Input → Prop} {good' : α → Input → Prop} {v : Input → α}
    {v' : α → Input → β} {n : Input → Nat} {n' : α → Input → Nat} (hr : Scans r good v n)
    (hf : ∀ a, Scans (f a) (good' a) (v' a) (n' a)) :
    Scans (r >>= f) (fun x => good x ∧ good' (v x) (x.skip (n x))) (fun x => v' (v x) (x.skip (n x)))
      fun x => n x + n' (v x) (x.skip (n x)) := by
  constructor
  · intro s x h
    show EStateM.bind r f _ = _
    rw [EStateM.bind, hr.ok s x h.1]
    show f (v x) _ = _
    rw [(hf (v x)).ok s _ h.2, Input.skip_skip]
  · intro s x h
    by_cases hg : good x
    · obtain ⟨e, y, he⟩ := (hf (v x)).fails s (x.skip (n x)) fun h' => h ⟨hg, h'⟩
      refine ⟨e, y, ?_⟩
      show EStateM.bind r f _ = _
      rw [EStateM.bind, hr.ok s x hg]
      exact he
    · obtain ⟨e, y, he⟩ := hr.fails s x hg
      refine ⟨e, y, ?_⟩
      show EStateM.bind r f _ = _
      rw [EStateM.bind, he]

theorem congr {r : Loader σ α} {good good' : Input → Prop} {v v' : Input → α} {n n' : Input → Nat}
    (h : Scans r good v n) (hgood : ∀ x, good' x ↔ good x) (hv : ∀ x, good x → v' x = v x)
    (hn : ∀ x, good x → n' x = n x) : Scans r good' v' n' := by
  constructor
  · intro s x hx
    rw [hv x ((hgood x).mp hx), hn x ((hgood x).mp hx)]
    exact h.ok s x ((hgood x).mp hx)
  · exact fun s x hx => h.fails s x fun hg => hx ((hgood x).mpr hg)

end Scans

/-! ## A loop that visits each place once -/

/-- A loop over the first `n` places of a family, each changed by its own turn. -/
theorem foldl_range_update {γ : Nat → Type} (g : (i : Nat) → γ i → γ i) (s : (i : Nat) → γ i) (n i : Nat) :
    (List.range n).foldl (fun s j => Function.update s j (g j (s j))) s i =
      if i < n then g i (s i) else s i := by
  induction n generalizing i with
  | zero => simp
  | succ n ih =>
    rw [List.range_succ, List.foldl_append, List.foldl_cons, List.foldl_nil]
    by_cases h : i = n
    · subst h
      rw [Function.update_self, ih, if_neg (Nat.lt_irrefl i), if_pos (Nat.lt_succ_self i)]
    · rw [Function.update_of_ne h, ih]
      congr 1
      simp
      omega

/-! ## Copies through a small buffer -/

/-- `conv` goes unit by unit: `src` bytes become `dst` bytes. -/
structure Unitwise (conv : Bytes → Bytes) (src dst : Nat) : Prop where
  append : ∀ (k : Nat) (x y : Bytes), x.length = k * src → conv (x ++ y) = conv x ++ conv y
  length : ∀ (k : Nat) (x : Bytes), x.length = k * src → (conv x).length = k * dst

theorem unitwise_id : Unitwise id 1 1 := ⟨fun _ _ _ _ => rfl, fun _ _ h => h⟩

theorem Unitwise.nil {conv : Bytes → Bytes} {src dst : Nat} (h : Unitwise conv src dst) : conv [] = [] := by
  have := h.length 0 [] (by simp)
  simpa using this

/-- `left` units from `off` on, read through a buffer of `cap` units. -/
def copyOut (conv : Bytes → Bytes) (src cap : Nat) (b : Bytes) (off left : Nat) : Bytes :=
  if left = 0 ∨ cap = 0 then []
  else
    conv (span b off (min cap left * src)) ++
      copyOut conv src cap b (off + min cap left * src) (left - min cap left)
termination_by left
decreasing_by omega

theorem copyOut_eq {conv : Bytes → Bytes} {src dst cap : Nat} (hconv : Unitwise conv src dst) (hcap : 0 < cap)
    (b : Bytes) (off left : Nat) (h : off + left * src ≤ b.length) :
    copyOut conv src cap b off left = conv (span b off (left * src)) := by
  induction left using Nat.strong_induction_on generalizing off with
  | _ left ih =>
    rw [copyOut]
    split
    · have : left = 0 := by omega
      simp [this, hconv.nil]
    · obtain ⟨k, r, hk, rfl⟩ : ∃ k r, k = min cap left ∧ left = k + r := ⟨_, left - min cap left, rfl, by omega⟩
      have hsub : k + r - min cap (k + r) = r := by omega
      rw [Nat.add_mul] at h
      rw [hsub, ← hk, ih r (by omega) _ (by omega), Nat.add_mul, span_add]
      exact (hconv.append k _ _ (length_span (by omega))).symm

/-- `left` units written from `off` on, taken from the file `cap` units at a time. -/
def copyIn {n : Nat} (read : Nat → Loader (Buf n) Bytes) (conv : Bytes → Bytes) (src dst cap off left : Nat) :
    Loader (Buf n) Unit :=
  if left = 0 ∨ cap = 0 then pure ()
  else do
    let b ← read (min cap left * src)
    Loader.update fun t => t.write off (conv b)
    copyIn read conv src dst cap (off + min cap left * dst) (left - min cap left)
termination_by left
decreasing_by omega

theorem copyIn_reads {n : Nat} {read : Nat → Loader (Buf n) Bytes} (hread : ∀ s b, Reads (read b.length) s b b s)
    {conv : Bytes → Bytes} {src dst cap : Nat} (hconv : Unitwise conv src dst) (hcap : 0 < cap) {off left : Nat} :
    ∀ {b : Bytes} {t : Buf n}, b.length = left * src → off + left * dst ≤ n →
      Reads (copyIn read conv src dst cap off left) t b () (t.write off (conv b)) := by
  induction left using Nat.strong_induction_on generalizing off with
  | _ left ih =>
    intro b t hb hfit
    rw [copyIn]
    split
    · have hzero : left = 0 := by omega
      subst hzero
      have hnil : b = [] := by simpa using hb
      rw [hnil, hconv.nil, Buf.write_nil]
      exact Reads.pure () t
    · obtain ⟨k, r, hk, rfl⟩ : ∃ k r, k = min cap left ∧ left = k + r := ⟨_, left - min cap left, rfl, by omega⟩
      have hsub : k + r - min cap (k + r) = r := by omega
      rw [Nat.add_mul] at hb hfit
      obtain ⟨x, y, rfl, hx⟩ : ∃ x y, b = x ++ y ∧ x.length = k * src :=
        ⟨b.take (k * src), b.drop (k * src), (List.take_append_drop _ _).symm, by simp; omega⟩
      have hy : y.length = r * src := by
        rw [List.length_append] at hb
        omega
      have hlx := hconv.length k x hx
      have hly := hconv.length r y hy
      rw [hsub, ← hk, hconv.append k x y hx, ← Buf.write_append (by simp; omega), hlx, ← hx]
      apply Reads.bind (hread t x)
      apply Reads.bind_nil (Reads.update _ t)
      exact ih r (by omega) hy (by omega)

end Ds4
