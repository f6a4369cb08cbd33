/- Programs over a state whose other decisions come from outside: a program asks
   the environment for a number, looks at the state, or acts on it. Everything the
   program cannot know from the state, the success of a device call or a test of
   the host, is an answer, so that a statement about every list of answers is
   one about every course the program can take.

   PROVED here: an invariant that every action keeps is kept by every program
   (`Program.run_keeps`); pre- and postconditions over every course compose along
   the program's text (`Program.Ensures`, one rule for each construct); the weakest
   precondition of a program is computed from its text (`Program.wp`), and what it
   says holds of every run (`Program.wp_run`). -/
namespace Ds4

inductive Program (A S : Type) (α : Type) where
  | ret (a : α)
  | ask (k : Int → Program A S α)
  | look (k : S → Program A S α)
  | act (a : A) (k : Program A S α)

namespace Program

variable {A S α β : Type}

def bind (p : Program A S α) (f : α → Program A S β) : Program A S β :=
  match p with
  | ret a => f a
  | ask k => ask fun n => (k n).bind f
  | look k => look fun s => (k s).bind f
  | act a k => act a (k.bind f)

instance : Monad (Program A S) where
  pure := ret
  bind := bind

/-- The result and the state a program leaves, from a list of answers that ends in zeros. -/
def run (apply : A → S → S) : Program A S α → S → List Int → α × S
  | ret a, s, _ => (a, s)
  | ask k, s, answers => run apply (k (answers.headD 0)) s answers.tail
  | look k, s, answers => run apply (k s) s answers
  | act a k, s, answers => run apply k (apply a s) answers

/-- What every action keeps, every program keeps. -/
theorem run_keeps {apply : A → S → S} {P : S → Prop} (hact : ∀ a s, P s → P (apply a s)) (p : Program A S α) :
    ∀ (s : S) (answers : List Int), P s → P (run apply p s answers).2 := by
  induction p with
  | ret a =>
    intro s answers h
    exact h
  | ask k ih =>
    intro s answers h
    exact ih _ s _ h
  | look k ih =>
    intro s answers h
    exact ih s s answers h
  | act a k ih =>
    intro s answers h
    exact ih _ answers (hact a s h)

@[simp] theorem run_pure (apply : A → S → S) (a : α) (s : S) (answers : List Int) :
    run apply (pure a) s answers = (a, s) := rfl

/-- The second of two programs runs on what the first leaves, of the answers too. -/
theorem run_bind (apply : A → S → S) (p : Program A S α) (f : α → Program A S β) : ∀ (s : S) (answers : List Int),
    ∃ rest, run apply (p >>= f) s answers = run apply (f (run apply p s answers).1) (run apply p s answers).2 rest := by
  induction p with
  | ret a =>
    intro s answers
    exact ⟨answers, rfl⟩
  | ask k ih =>
    intro s answers
    exact ih _ s answers.tail
  | look k ih =>
    intro s answers
    exact ih s s answers
  | act a k ih =>
    intro s answers
    exact ih (apply a s) answers

/-- With nothing but zeros for answers, both run so. -/
@[simp] theorem run_bind_nil (apply : A → S → S) (p : Program A S α) (f : α → Program A S β) : ∀ s : S,
    run apply (p >>= f) s [] = run apply (f (run apply p s []).1) (run apply p s []).2 [] := by
  induction p with
  | ret a =>
    intro s
    rfl
  | ask k ih =>
    intro s
    exact ih 0 s
  | look k ih =>
    intro s
    exact ih s s
  | act a k ih =>
    intro s
    exact ih (apply a s)

/-- From a state with `P`, every course of `p` ends with `Q`. -/
def Ensures (apply : A → S → S) (P : S → Prop) (p : Program A S α) (Q : α → S → Prop) : Prop :=
  ∀ s answers, P s → Q (run apply p s answers).1 (run apply p s answers).2

namespace Ensures
variable {apply : A → S → S} {P : S → Prop}

theorem pure {a : α} {Q : α → S → Prop} (h : ∀ s, P s → Q a s) : Ensures apply P (Pure.pure a) Q :=
  fun s _ hs => h s hs

theorem ask {k : Int → Program A S α} {Q : α → S → Prop} (h : ∀ n, Ensures apply P (k n) Q) :
    Ensures apply P (Program.ask k) Q := fun s answers hs => h _ s answers.tail hs

theorem look {k : S → Program A S α} {Q : α → S → Prop} (h : ∀ s₀, Ensures apply (fun s => s = s₀ ∧ P s) (k s₀) Q) :
    Ensures apply P (Program.look k) Q := fun s answers hs => h s s answers ⟨rfl, hs⟩

theorem act {R : S → Prop} {a : A} {k : Program A S α} {Q : α → S → Prop} (ha : ∀ s, P s → R (apply a s))
    (h : Ensures apply R k Q) : Ensures apply P (Program.act a k) Q := fun s answers hs => h _ answers (ha s hs)

theorem bind {p : Program A S α} {f : α → Program A S β} {Q : α → S → Prop} {R : β → S → Prop}
    (hp : Ensures apply P p Q) (hf : ∀ a, Ensures apply (Q a) (f a) R) : Ensures apply P (p >>= f) R := by
  intro s answers hs
  obtain ⟨rest, hrun⟩ := run_bind apply p f s answers
  rw [hrun]
  exact hf _ _ rest (hp s answers hs)

theorem ite {c : Prop} [Decidable c] {p q : Program A S α} {Q : α → S → Prop} (hp : c → Ensures apply P p Q)
    (hq : ¬c → Ensures apply P q Q) : Ensures apply P (if c then p else q) Q := by
  by_cases hc : c
  · rw [if_pos hc]
    exact hp hc
  · rw [if_neg hc]
    exact hq hc

/-- What the precondition says of something else than the state. -/
theorem known {c : Prop} {p : Program A S α} {Q : α → S → Prop} (h : ∀ s, P s → c) (hp : c → Ensures apply P p Q) :
    Ensures apply P p Q := fun s answers hs => hp (h s hs) s answers hs

theorem pre {R : S → Prop} {p : Program A S α} {Q : α → S → Prop} (hp : Ensures apply R p Q) (h : ∀ s, P s → R s) :
    Ensures apply P p Q := fun s answers hs => hp s answers (h s hs)

theorem post {p : Program A S α} {Q R : α → S → Prop} (hp : Ensures apply P p Q) (h : ∀ a s, Q a s → R a s) :
    Ensures apply P p R := fun s answers hs => h _ _ (hp s answers hs)

end Ensures

/-- What must hold of a state for every course of a program to end with `Q`. -/
def wp (apply : A → S → S) : Program A S α → (α → S → Prop) → S → Prop
  | ret a, Q, s => Q a s
  | ask k, Q, s => ∀ n, wp apply (k n) Q s
  | look k, Q, s => wp apply (k s) Q s
  | act a k, Q, s => wp apply k Q (apply a s)

section
variable {apply : A → S → S}

theorem wp_run {p : Program A S α} {Q : α → S → Prop} : ∀ {s : S}, wp apply p Q s → ∀ answers,
    Q (run apply p s answers).1 (run apply p s answers).2 := by
  induction p with
  | ret a => exact fun h _ => h
  | ask k ih => exact fun h answers => ih _ (h _) answers.tail
  | look k ih => exact fun h answers => ih _ h answers
  | act a k ih => exact fun h answers => ih h answers

theorem wp_mono {p : Program A S α} {Q R : α → S → Prop} (hQ : ∀ a s, Q a s → R a s) :
    ∀ {s : S}, wp apply p Q s → wp apply p R s := by
  induction p with
  | ret a => exact fun h => hQ a _ h
  | ask k ih => exact fun h n => ih n (h n)
  | look k ih => exact fun h => ih _ h
  | act a k ih => exact fun h => ih h

/-- What every action keeps is a postcondition of every program. -/
theorem wp_keeps {P : S → Prop} (hact : ∀ a s, P s → P (apply a s)) (p : Program A S α) :
    ∀ {s : S}, P s → wp apply p (fun _ => P) s := by
  induction p with
  | ret a => exact fun h => h
  | ask k ih => exact fun h n => ih n h
  | look k ih => exact fun h => ih _ h
  | act a k ih => exact fun h => ih (hact a _ h)

theorem wp_always {p : Program A S α} {Q : α → S → Prop} {s : S} (hQ : ∀ a s, Q a s) : wp apply p Q s :=
  wp_mono (fun a s _ => hQ a s) (wp_keeps (P := fun _ => True) (fun _ _ h => h) p trivial)

theorem wp_and {p : Program A S α} {Q R : α → S → Prop} : ∀ {s : S}, wp apply p Q s → wp apply p R s →
    wp apply p (fun a s => Q a s ∧ R a s) s := by
  induction p with
  | ret a => exact fun hq hr => ⟨hq, hr⟩
  | ask k ih => exact fun hq hr n => ih n (hq n) (hr n)
  | look k ih => exact fun hq hr => ih _ hq hr
  | act a k ih => exact fun hq hr => ih hq hr

@[simp] theorem wp_pure (a : α) (Q : α → S → Prop) (s : S) : wp apply (pure a) Q s = Q a s := rfl

@[simp] theorem wp_bind (p : Program A S α) (f : α → Program A S β) (Q : β → S → Prop) : ∀ s : S,
    wp apply (p >>= f) Q s = wp apply p (fun a => wp apply (f a) Q) s := by
  induction p with
  | ret a => exact fun _ => rfl
  | ask k ih => exact fun s => forall_congr fun n => ih n s
  | look k ih => exact fun s => ih s s
  | act a k ih => exact fun s => ih _

theorem wp_ite {c : Prop} [Decidable c] {p q : Program A S α} {Q : α → S → Prop} {s : S} (hp : c → wp apply p Q s)
    (hq : ¬c → wp apply q Q s) : wp apply (if c then p else q) Q s := by
  by_cases hc : c
  · rw [if_pos hc]
    exact hp hc
  · rw [if_neg hc]
    exact hq hc

end

end Program

end Ds4
