import Mathlib.Data.List.Range
import Mathlib.Data.List.Nodup
import Mathlib.Data.List.Count

/- A log of events that only grows at its end: some of them open a thing, some
   close one, and each may carry a number. Nothing here is about one protocol.

   PROVED here: an event appended with the next number keeps the log numbered
   (`Numbered.push`), and where nothing is closed before it is opened and the
   closed things are the opened ones, each thing is closed exactly once after it
   was opened (`OpensFirst.closed_once`). -/
namespace Ds4.EventLog

variable {E R : Type} {opened closed : E → Option R} {number : E → Option Nat} {log : List E}

/-! ## Numbers -/

/-- The events carry 0, 1, 2, … -/
def Numbered (number : E → Option Nat) (log : List E) : Prop :=
  log.map number = (List.range log.length).map some

theorem Numbered.push {e : E} (h : Numbered number log) (he : number e = some log.length) :
    Numbered number (log ++ [e]) := by
  rw [Numbered] at h ⊢
  rw [List.map_append, h, List.length_append, List.length_singleton, List.range_succ, List.map_append, List.map_singleton,
    List.map_singleton, he]

/-! ## Opening and closing -/

/-- Whatever a beginning of the log closes, it has opened. -/
def OpensFirst (opened closed : E → Option R) (log : List E) : Prop :=
  ∀ l, l <+: log → ∀ r ∈ l.filterMap closed, r ∈ l.filterMap opened

theorem opensFirst_nil : OpensFirst opened closed [] := by
  intro l hl r hr
  rw [List.prefix_nil.mp hl] at hr
  exact absurd hr List.not_mem_nil

theorem OpensFirst.push {e : E} (h : OpensFirst opened closed log)
    (he : ∀ r, closed e = some r → r ∈ log.filterMap opened) : OpensFirst opened closed (log ++ [e]) := by
  intro l hl r hr
  rcases List.prefix_concat_iff.mp hl with rfl | hl
  · rw [List.filterMap_append, List.mem_append] at hr ⊢
    left
    rcases hr with hr | hr
    · exact h log List.prefix_rfl r hr
    · simp only [List.filterMap_cons, List.filterMap_nil] at hr
      cases hc : closed e with
      | none => simp [hc] at hr
      | some r' =>
        simp only [hc, List.mem_singleton] at hr
        exact he r (hr ▸ hc)
  · exact h l hl r hr

/-- Events that close nothing. -/
theorem OpensFirst.append (es : List E) (h : OpensFirst opened closed log) (hes : ∀ e ∈ es, closed e = none) :
    OpensFirst opened closed (log ++ es) := by
  induction es generalizing log with
  | nil => simpa using h
  | cons e es ih =>
    rw [List.forall_mem_cons] at hes
    have hpush : OpensFirst opened closed (log ++ [e]) := h.push fun r hr => absurd (hes.1 ▸ hr) (by simp)
    simpa using ih hpush hes.2

/-- A thing that is opened once and closed once is closed after it is opened. -/
theorem OpensFirst.closed_once [BEq R] [LawfulBEq R] (h : OpensFirst opened closed log)
    (hsame : log.filterMap closed = log.filterMap opened) (hnodup : (log.filterMap opened).Nodup)
    {p q : List E} {e : E} {r : R} (hlog : log = p ++ e :: q) (ho : opened e = some r) (hc : closed e = none) :
    (q.filterMap closed).count r = 1 := by
  have hopened : log.filterMap opened = p.filterMap opened ++ r :: q.filterMap opened := by
    rw [hlog, List.filterMap_append, List.filterMap_cons_some ho]
  have hclosed : log.filterMap closed = p.filterMap closed ++ q.filterMap closed := by
    rw [hlog, List.filterMap_append, List.filterMap_cons_none hc]
  -- `r` is opened at `e` only, so nothing before `e` closes it
  have hnew : r ∉ p.filterMap opened := by
    rw [hopened, List.nodup_append] at hnodup
    exact fun hr => hnodup.2.2 r hr r List.mem_cons_self rfl
  have hbefore : (p.filterMap closed).count r = 0 :=
    List.count_eq_zero.mpr fun hr => hnew (h p ⟨e :: q, hlog.symm⟩ r hr)
  have hall : (log.filterMap closed).count r = 1 := by
    rw [hsame, List.count_eq_one_of_mem hnodup]
    rw [hopened]
    exact List.mem_append_right _ List.mem_cons_self
  rw [hclosed, List.count_append, hbefore, Nat.zero_add] at hall
  exact hall

end Ds4.EventLog
