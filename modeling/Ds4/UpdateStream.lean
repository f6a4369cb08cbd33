import Ds4.ByteStore
import Ds4.Program

/- Files updated in place through a buffered stream, where any call may fail.

   A `Stream` is a file and what its writer holds back: `pending` belongs at
   `pos`, and any first part of it may reach the file at any write, then the rest
   later, or never. The stream's calls are programs: how much a read delivers, how
   much of a write is taken, how much of the buffer reaches the file and whether
   the rest is lost are answers, zero for a call that does its work.

   A `Frame` says which bytes a file has to keep at some of its places. PROVED
   here: bytes that agree with a frame may be written over a file that keeps it
   (`Frame.Of.overwrite`), the file may be cut behind the last place of the frame
   (`Frame.Of.resize`), and so each call of a stream whose pending bytes agree
   with the frame keeps it in every course (`fwrite_keeps` and the others). -/
namespace Ds4
open Bytes

/-! ## Bytes put into a file -/

/-- `b` put at `off`, behind zeros if the file ends before. Where nothing is put, nothing grows. -/
def overwrite (file : Bytes) (off : Nat) (b : Bytes) : Bytes :=
  if b = [] then file
  else file.take off ++ (List.replicate (off - file.length) 0 ++ (b ++ file.drop (off + b.length)))

/-- The file with `n` bytes, of which those that are new are zero. -/
def resize (file : Bytes) (n : Nat) : Bytes := file.take n ++ List.replicate (n - file.length) 0

theorem getElem?_overwrite_mem {file b : Bytes} {off i : Nat} (h : i < b.length) : (overwrite file off b)[off + i]? = b[i]? := by
  have hb : b ≠ [] := fun hb => by
    rw [hb] at h
    exact absurd h (Nat.not_lt_zero i)
  have hlen : (file.take off ++ List.replicate (off - file.length) 0).length = off := by
    rw [List.length_append, List.length_take, List.length_replicate]
    omega
  rw [overwrite, if_neg hb, ← List.append_assoc, List.getElem?_append_right (by omega), hlen, Nat.add_sub_cancel_left,
    List.getElem?_append_left h]

theorem getElem?_overwrite_other {file b : Bytes} {off i : Nat} (hi : i < file.length) (h : i < off ∨ off + b.length ≤ i) :
    (overwrite file off b)[i]? = file[i]? := by
  rw [overwrite]
  split_ifs with hb
  · rfl
  rcases h with h | h
  · rw [List.getElem?_append_left (by rw [List.length_take]; omega), List.getElem?_take_of_lt h]
  · have hzero : off - file.length = 0 := by omega
    have hlen : (file.take off).length = off := by
      rw [List.length_take]
      omega
    rw [hzero, List.replicate_zero, List.nil_append, List.getElem?_append_right (by omega),
      List.getElem?_append_right (by omega), hlen, List.getElem?_drop]
    congr 1
    omega

theorem getElem?_resize {file : Bytes} {n i : Nat} (hi : i < file.length) (h : i < n) : (resize file n)[i]? = file[i]? := by
  rw [resize, List.getElem?_append_left (by rw [List.length_take]; omega), List.getElem?_take_of_lt h]

theorem overwrite_head {file b : Bytes} (h : b ≠ []) : overwrite file 0 b = b ++ file.drop b.length := by
  rw [overwrite, if_neg h, List.take_zero, List.nil_append, Nat.zero_sub, List.replicate_zero, List.nil_append, Nat.zero_add]

theorem overwrite_end (file b : Bytes) : overwrite file file.length b = file ++ b := by
  rw [overwrite]
  split_ifs with hb
  · rw [hb, List.append_nil]
  · rw [List.take_length, Nat.sub_self, List.replicate_zero, List.nil_append, List.drop_of_length_le (Nat.le_add_right _ _),
      List.append_nil]

/-! ## Frames -/

/-- The byte to be kept at a place, if there is one. -/
abbrev Frame := Nat → Option UInt8

namespace Frame

/-- The file has the bytes of the frame. -/
def Of (t : Frame) (file : Bytes) : Prop := ∀ i c, t i = some c → file[i]? = some c

/-- Bytes put at `off` are the frame's, where it has any. -/
def Agrees (t : Frame) (off : Nat) (b : Bytes) : Prop := ∀ i c, i < b.length → t (off + i) = some c → b[i]? = some c

/-- Nothing is to be kept from `n` on. -/
def FreeFrom (t : Frame) (n : Nat) : Prop := ∀ i, n ≤ i → t i = none

variable {t : Frame} {file b : Bytes} {off n : Nat}

theorem Of.overwrite (h : t.Of file) (hb : t.Agrees off b) : t.Of (overwrite file off b) := by
  intro i c hc
  have hi : i < file.length := (List.getElem?_eq_some_iff.mp (h i c hc)).1
  by_cases hin : off ≤ i ∧ i < off + b.length
  · obtain ⟨k, rfl⟩ := Nat.exists_eq_add_of_le hin.1
    rw [getElem?_overwrite_mem (by omega)]
    exact hb k c (by omega) hc
  · rw [getElem?_overwrite_other hi (by omega)]
    exact h i c hc

theorem Of.resize (h : t.Of file) (hn : t.FreeFrom n) : t.Of (resize file n) := by
  intro i c hc
  have hi : i < file.length := (List.getElem?_eq_some_iff.mp (h i c hc)).1
  have hlt : i < n := by
    rcases Nat.lt_or_ge i n with hlt | hge
    · exact hlt
    · exact absurd ((hn i hge).symm.trans hc) (by simp)
  rw [getElem?_resize hi hlt]
  exact h i c hc

/-- Two files of one frame have the same bytes where all of them are kept. -/
theorem Of.span {file' : Bytes} (h : t.Of file) (h' : t.Of file') (hfix : ∀ i, off ≤ i → i < off + n → (t i).isSome = true) :
    span file off n = span file' off n := by
  apply List.ext_getElem?
  intro i
  rcases Nat.lt_or_ge i n with hi | hi
  · obtain ⟨c, hc⟩ := Option.isSome_iff_exists.mp (hfix (off + i) (by omega) (by omega))
    rw [Ds4.span, Ds4.span, List.getElem?_take_of_lt hi, List.getElem?_take_of_lt hi, List.getElem?_drop, List.getElem?_drop,
      h _ c hc, h' _ c hc]
  · rw [Ds4.span, Ds4.span, List.getElem?_eq_none (by rw [List.length_take]; omega),
      List.getElem?_eq_none (by rw [List.length_take]; omega)]

theorem Agrees.nil : t.Agrees off [] := fun _ _ hi _ => absurd hi (Nat.not_lt_zero _)

theorem Agrees.of_free (h : t.FreeFrom n) (hn : n ≤ off) : t.Agrees off b := by
  intro i c _ hc
  rw [h _ (by omega)] at hc
  exact absurd hc (by simp)

theorem Agrees.take (h : t.Agrees off b) (k : Nat) : t.Agrees off (b.take k) := by
  intro i c hi hc
  rw [List.length_take] at hi
  rw [List.getElem?_take_of_lt (by omega)]
  exact h i c (by omega) hc

theorem Agrees.drop (h : t.Agrees off b) {k : Nat} (hk : k ≤ b.length) : t.Agrees (off + k) (b.drop k) := by
  intro i c hi hc
  rw [List.length_drop] at hi
  rw [List.getElem?_drop]
  exact h (k + i) c (by omega) (by rwa [← Nat.add_assoc])

theorem Agrees.append {b' : Bytes} (h : t.Agrees off b) (h' : t.Agrees (off + b.length) b') : t.Agrees off (b ++ b') := by
  intro i c hi hc
  rw [List.length_append] at hi
  rcases Nat.lt_or_ge i b.length with hlt | hge
  · rw [List.getElem?_append_left hlt]
    exact h i c hlt hc
  · rw [List.getElem?_append_right hge]
    apply h' _ _ (by omega)
    rwa [Nat.add_assoc, Nat.add_sub_of_le hge]

/-- The start of a file of the frame agrees with it. -/
theorem Of.agrees (h : t.Of (b ++ file)) : t.Agrees 0 b := by
  intro i c hi hc
  rw [Nat.zero_add] at hc
  exact (List.getElem?_append_left hi).symm.trans (h i c hc)

end Frame

/-! ## Streams -/

structure Stream where
  file : Bytes
  pos : Nat
  pending : Bytes

namespace Stream

inductive Action where
  | rewind
  | put (b : Bytes)
  /-- The first `k` pending bytes reach the file. -/
  | drain (k : Nat)
  | discard
  | seek (off : Nat)
  | cut (n : Nat)

def apply : Action → Stream → Stream
  | .rewind, s => { s with pos := 0, pending := [] }
  | .put b, s => { s with pending := s.pending ++ b }
  | .drain k, s =>
    { file := overwrite s.file s.pos (s.pending.take k), pos := s.pos + (s.pending.take k).length, pending := s.pending.drop k }
  | .discard, s => { s with pending := [] }
  | .seek off, s => { s with pos := off }
  | .cut n, s => { s with file := resize s.file n }

abbrev Op := Program Action Stream

def act (a : Action) : Op Unit := .act a (.ret ())
def stream : Op Stream := .look .ret
def askNat : Op Nat := .ask fun n => .ret n.toNat
/-- Whether a call fails that could have been made. -/
def fails : Op Bool := .ask fun n => .ret (n != 0)

def fopen : Op Bool := do
  if ← fails then return false
  act .rewind
  return true

/-- At most `n` bytes; a read that fails delivers fewer. -/
def fread (n : Nat) : Op Bytes := do
  let s ← stream
  let lost ← askNat
  let got := (span s.file s.pos n).take (n - lost)
  act (.seek (s.pos + got.length))
  return got

/-- The buffer may be lost with a write that has failed. -/
def afterFailure : Op Unit := do
  if ← fails then act .discard

/-- The number of bytes the stream has taken. -/
def fwrite (b : Bytes) : Op Nat := do
  let lost ← askNat
  act (.put (b.take (b.length - lost)))
  act (.drain (← askNat))
  if lost ≠ 0 then afterFailure
  return b.length - lost

def fflush : Op Bool := do
  let s ← stream
  let lost ← askNat
  act (.drain (s.pending.length - lost))
  if lost = 0 then return true
  afterFailure
  return false

def fseek (off : Nat) : Op Bool := do
  if ← fflush then
    if ← fails then return false
    act (.seek off)
    return true
  else return false

def ftruncate (n : Nat) : Op Bool := do
  if ← fails then return false
  act (.cut n)
  return true

def fclose : Op Unit := do
  let s ← stream
  let lost ← askNat
  act (.drain (s.pending.length - lost))
  act .discard

/-- What a program does to a file of its own. -/
def update {α : Type} (p : Op α) (file : Bytes) (answers : List Int) : Bytes := (p.run apply ⟨file, 0, []⟩ answers).2.file

/-! ## What every course of a call keeps -/

section
variable {α : Type} {P R : Stream → Prop} {Q : α → Stream → Prop}

theorem act_then {a : Action} {f : Unit → Op α} (ha : ∀ s, P s → R (apply a s)) (h : (f ()).Ensures apply R Q) :
    (act a >>= f).Ensures apply P Q := Program.Ensures.act ha h

theorem stream_then {f : Stream → Op α} (h : ∀ s₀, (f s₀).Ensures apply (fun s => s = s₀ ∧ P s) Q) :
    (stream >>= f).Ensures apply P Q := Program.Ensures.look h

theorem askNat_then {f : Nat → Op α} (h : ∀ n, (f n).Ensures apply P Q) : (askNat >>= f).Ensures apply P Q :=
  Program.Ensures.ask fun n => h n.toNat

theorem fails_then {f : Bool → Op α} (h : ∀ failed, (f failed).Ensures apply P Q) : (fails >>= f).Ensures apply P Q :=
  Program.Ensures.ask fun n => h (n != 0)

end

/-- The file keeps the frame, the pending bytes agree with it, and they stand from `n` on. -/
structure Keeps (t : Frame) (n : Nat) (s : Stream) : Prop where
  file : t.Of s.file
  pending : t.Agrees s.pos s.pending
  from_le : n ≤ s.pos

/-- The file keeps the frame, and nothing is pending at `off`. -/
structure Clean (t : Frame) (off : Nat) (s : Stream) : Prop where
  file : t.Of s.file
  pending : s.pending = []
  pos : s.pos = off

variable {t : Frame} {n off : Nat} {s : Stream}

theorem Clean.keeps (h : Clean t off s) (hn : n ≤ off) : Keeps t n s where
  file := h.file
  pending := by
    rw [h.pending]
    exact Frame.Agrees.nil
  from_le := by
    rw [h.pos]
    exact hn

theorem Keeps.mono {m : Nat} (h : Keeps t n s) (hm : m ≤ n) : Keeps t m s := ⟨h.file, h.pending, Nat.le_trans hm h.from_le⟩

theorem Keeps.put (h : Keeps t n s) {b : Bytes} (hb : t.Agrees (s.pos + s.pending.length) b) : Keeps t n (apply (.put b) s) :=
  ⟨h.file, h.pending.append hb, h.from_le⟩

theorem Keeps.drain (h : Keeps t n s) (k : Nat) : Keeps t n (apply (.drain k) s) where
  file := h.file.overwrite (h.pending.take k)
  pending := by
    rcases Nat.le_total k s.pending.length with hk | hk
    · simp only [apply, List.length_take, Nat.min_eq_left hk]
      exact h.pending.drop hk
    · simp only [apply, List.drop_of_length_le hk]
      exact Frame.Agrees.nil
  from_le := Nat.le_add_right_of_le h.from_le

theorem Keeps.discard (h : Keeps t n s) : Keeps t n (apply .discard s) := ⟨h.file, Frame.Agrees.nil, h.from_le⟩

theorem afterFailure_keeps : afterFailure.Ensures apply (Keeps t n) fun _ => Keeps t n := by
  apply fails_then
  intro lost
  apply Program.Ensures.ite
  · intro _
    exact Program.Ensures.act (fun s hs => hs.discard) (Program.Ensures.pure fun _ hs => hs)
  · intro _
    exact Program.Ensures.pure fun _ hs => hs

theorem fwrite_keeps (b : Bytes) : (fwrite b).Ensures apply (fun s => Keeps t n s ∧ t.Agrees (s.pos + s.pending.length) b)
    fun _ => Keeps t n := by
  apply askNat_then
  intro lost
  refine act_then (R := Keeps t n) (fun s hs => hs.1.put (hs.2.take _)) ?_
  apply askNat_then
  intro k
  refine act_then (R := Keeps t n) (fun s hs => hs.drain _) ?_
  apply Program.Ensures.ite
  · intro _
    exact Program.Ensures.bind afterFailure_keeps fun _ => Program.Ensures.pure fun _ hs => hs
  · intro _
    exact Program.Ensures.pure fun _ hs => hs

/-- A flush that succeeds leaves nothing pending. -/
theorem fflush_keeps : fflush.Ensures apply (Keeps t n) fun ok s => Keeps t n s ∧ (ok = true → s.pending = []) := by
  apply stream_then
  intro s₀
  apply askNat_then
  intro lost
  refine act_then (R := fun s => Keeps t n s ∧ (lost = 0 → s.pending = [])) ?_ ?_
  · rintro s ⟨rfl, hs⟩
    refine ⟨hs.drain _, fun hlost => ?_⟩
    rw [hlost]
    exact List.drop_length
  apply Program.Ensures.ite
  · intro hlost
    exact Program.Ensures.pure fun s hs => ⟨hs.1, fun _ => hs.2 hlost⟩
  · intro _
    refine Program.Ensures.bind (afterFailure_keeps.pre fun s hs => hs.1) ?_
    intro _
    exact Program.Ensures.pure fun s hs => ⟨hs, by simp⟩

theorem fseek_keeps (off : Nat) : (fseek off).Ensures apply (Keeps t n) fun ok s => Keeps t 0 s ∧ (ok = true → Clean t off s) := by
  unfold fseek
  refine Program.Ensures.bind fflush_keeps ?_
  intro ok
  apply Program.Ensures.ite
  · intro hok
    apply fails_then
    intro failed
    apply Program.Ensures.ite
    · intro _
      exact Program.Ensures.pure fun s hs => ⟨hs.1.mono (Nat.zero_le n), by simp⟩
    · intro _
      refine act_then (R := Clean t off) (fun s hs => ⟨hs.1.file, hs.2 hok, rfl⟩) ?_
      exact Program.Ensures.pure fun s hs => ⟨hs.keeps (Nat.zero_le _), fun _ => hs⟩
  · intro _
    exact Program.Ensures.pure fun s hs => ⟨hs.1.mono (Nat.zero_le n), by simp⟩

/-- The file may be cut where nothing is to be kept any more. -/
theorem ftruncate_keeps (hfree : t.FreeFrom n) : (ftruncate n).Ensures apply (Clean t off) fun _ => Clean t off := by
  apply fails_then
  intro failed
  apply Program.Ensures.ite
  · intro _
    exact Program.Ensures.pure fun _ hs => hs
  · intro _
    refine act_then (R := Clean t off) (fun s hs => ⟨hs.file.resize hfree, hs.pending, hs.pos⟩) ?_
    exact Program.Ensures.pure fun _ hs => hs

theorem fclose_keeps : fclose.Ensures apply (Keeps t n) fun _ s => t.Of s.file := by
  apply stream_then
  intro s₀
  apply askNat_then
  intro lost
  refine act_then (R := Keeps t n) (fun s hs => hs.2.drain _) ?_
  exact Program.Ensures.act (R := fun s => t.Of s.file) (fun s hs => hs.file) (Program.Ensures.pure fun _ hs => hs)

theorem fopen_reads {f : Bytes} : fopen.Ensures apply (fun s => s.file = f) fun ok s => s.file = f ∧ (ok = true → s = ⟨f, 0, []⟩) := by
  apply fails_then
  intro failed
  apply Program.Ensures.ite
  · intro _
    exact Program.Ensures.pure fun s hs => ⟨hs, by simp⟩
  · intro _
    refine act_then (R := fun s => s = ⟨f, 0, []⟩) (fun s hs => by rw [apply, hs]) ?_
    apply Program.Ensures.pure
    rintro s rfl
    exact ⟨rfl, fun _ => rfl⟩

/-- A read takes some first part of what stands there, and changes nothing. -/
theorem fread_reads (f : Bytes) (off n : Nat) : (fread n).Ensures apply (fun s => s = ⟨f, off, []⟩) fun got s =>
    s = ⟨f, off + got.length, []⟩ ∧ ∃ k, got = (span f off n).take k := by
  apply stream_then
  intro s₀
  apply askNat_then
  intro lost
  refine act_then (R := fun s => s₀ = ⟨f, off, []⟩ ∧ s = ⟨f, off + ((span f off n).take (n - lost)).length, []⟩) ?_ ?_
  · rintro s ⟨rfl, rfl⟩
    exact ⟨rfl, rfl⟩
  · apply Program.Ensures.pure
    rintro s ⟨rfl, rfl⟩
    exact ⟨rfl, n - lost, rfl⟩

/-! ## Courses in which nothing fails -/

section
variable (s : Stream)

@[simp] theorem run_fopen : fopen.run apply s [] = (true, { s with pos := 0, pending := [] }) := rfl

@[simp] theorem run_fread (n : Nat) : (fread n).run apply s [] =
    (span s.file s.pos n, { s with pos := s.pos + (span s.file s.pos n).length }) := by
  have hgot : (span s.file s.pos n).take (n - 0) = span s.file s.pos n := by
    rw [Nat.sub_zero, span, List.take_take, Nat.min_self]
  show ((span s.file s.pos n).take (n - 0), ({ s with pos := s.pos + ((span s.file s.pos n).take (n - 0)).length } : Stream)) = _
  rw [hgot]

@[simp] theorem run_fwrite (b : Bytes) : (fwrite b).run apply s [] = (b.length, { s with pending := s.pending ++ b }) := by
  show (b.length, (⟨overwrite s.file s.pos [], s.pos, s.pending ++ b.take b.length⟩ : Stream)) = _
  rw [overwrite, if_pos rfl, List.take_length]

@[simp] theorem run_fflush : fflush.run apply s [] =
    (true, ⟨overwrite s.file s.pos s.pending, s.pos + s.pending.length, []⟩) := by
  show (true, (⟨overwrite s.file s.pos (s.pending.take s.pending.length), s.pos + (s.pending.take s.pending.length).length,
    s.pending.drop s.pending.length⟩ : Stream)) = _
  rw [List.take_length, List.drop_length]

@[simp] theorem run_fseek (off : Nat) : (fseek off).run apply s [] =
    (true, ⟨overwrite s.file s.pos s.pending, off, []⟩) := by
  rw [fseek, Program.run_bind_nil, run_fflush]
  rfl

@[simp] theorem run_ftruncate (n : Nat) : (ftruncate n).run apply s [] = (true, { s with file := resize s.file n }) := rfl

@[simp] theorem run_fclose : fclose.run apply s [] =
    ((), ⟨overwrite s.file s.pos s.pending, s.pos + s.pending.length, []⟩) := by
  show ((), (⟨overwrite s.file s.pos (s.pending.take s.pending.length), s.pos + (s.pending.take s.pending.length).length,
    []⟩ : Stream)) = _
  rw [List.take_length]

end

end Stream

end Ds4
