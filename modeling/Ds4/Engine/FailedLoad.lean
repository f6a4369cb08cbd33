import Ds4.Engine.PayloadRoundTrip

/- A payload that is refused, and the session it was to be loaded into.

   Up to the row counts a load reads into memory of its own, except for the
   logits, which go straight into the session (`loadTail`). Only then does it
   give the checkpoint up, and every failure behind that point leaves a session
   without a valid one (`invalidates_after`).

   PROVED: a failed load leaves the session as it was or invalid if and only if
   the file does not mix (`failed_load_unmixed`). A file mixes when it is refused
   for its logits or row counts with other logits in front of them (`Mixes`);
   then the old tokens stay valid beside the new logits (`failed_load_mixed`). -/
namespace Ds4.Engine
open Ds4 Bytes

variable {m : Shape} {σ : Type}

/-- The `i`th word of a file. -/
def wordAt (b : Bytes) (i : Nat) : Nat := getU32 (b.drop (4 * i))

theorem wordAt_drop (b : Bytes) (k i : Nat) : wordAt (b.drop (4 * k)) i = wordAt b (k + i) := by
  rw [wordAt, wordAt, List.drop_drop, Nat.mul_add]

theorem getU32_take (b : Bytes) : getU32 (b.take 4) = getU32 b := by
  simp [getU32, List.getD_eq_getElem?_getD]

theorem payloadReadU32_scans :
    Scans (payloadReadU32 : Loader σ Nat) (·.Holds 4) (fun x => wordAt x.rest 0) fun _ => 4 := by
  constructor
  · intro s x h
    show EStateM.bind (payloadReadBytes 4) _ _ = _
    have h1 : ¬x.remaining < 4 := by have := h.1; omega
    have h2 : ¬x.rest.length < 4 := by have := h.2; omega
    rw [EStateM.bind, payloadReadBytes, if_neg h1, if_neg h2, wordAt, ← getU32_take]
    rfl
  · intro s x h
    show ∃ e y, EStateM.bind (payloadReadBytes 4) _ _ = _
    rw [EStateM.bind, payloadReadBytes]
    by_cases h1 : x.remaining < 4
    · rw [if_pos h1]
      exact ⟨_, _, rfl⟩
    · have h2 : x.rest.length < 4 := by
        simp only [Input.Holds] at h
        omega
      rw [if_neg h1, if_pos h2]
      exact ⟨_, _, rfl⟩

theorem times_scans {α : Type} {r : Loader σ α} {v : Nat → α}
    (h : Scans r (·.Holds 4) (fun x => v (wordAt x.rest 0)) fun _ => 4) (n : Nat) :
    Scans (Loader.times n r) (·.Holds (4 * n)) (fun x => (List.range n).map fun i => v (wordAt x.rest i))
      fun _ => 4 * n := by
  induction n with
  | zero => exact (Scans.pure []).congr (fun x => by simp [Input.Holds]) (fun _ _ => rfl) fun _ _ => rfl
  | succ n ih =>
    have hsplit : 4 * (n + 1) = 4 + 4 * n := by omega
    refine (Scans.bind h fun a => Scans.bind ih fun as => Scans.pure (a :: as)).congr (fun x => ?_) (fun x _ => ?_)
      fun x _ => hsplit
    · rw [hsplit, Input.holds_add]
      simp
    · rw [List.range_succ_eq_map]
      simp only [List.map_cons, List.map_map, Input.skip]
      congr 1
      exact List.map_congr_left fun i _ => by
        rw [Function.comp_apply, Nat.succ_eq_one_add]
        exact (congrArg v (wordAt_drop x.rest 1 i)).symm

theorem readCounts_scans (savedCap : Nat) (cap : Nat → Nat) (e : String) :
    Scans (readCounts m savedCap cap e : Loader σ (List Nat))
      (fun x => x.Holds (4 * m.nLayer) ∧ ∀ il < m.nLayer, wordAt x.rest il ≤ savedCap ∧ wordAt x.rest il ≤ cap il)
      (fun x => (List.range m.nLayer).map (wordAt x.rest)) fun _ => 4 * m.nLayer := by
  have hone : ∀ il, Scans (do
      let n ← payloadReadU32
      Loader.refuse (n > savedCap ∨ n > cap il) e
      return n : Loader σ Nat)
      (fun x => x.Holds 4 ∧ wordAt x.rest 0 ≤ savedCap ∧ wordAt x.rest 0 ≤ cap il) (fun x => wordAt x.rest 0)
      fun _ => 4 := by
    intro il
    refine (payloadReadU32_scans.bind fun n => (Scans.refuse (n > savedCap ∨ n > cap il) e).bind fun _ =>
      Scans.pure n).congr (fun x => ?_) (fun _ _ => rfl) fun _ _ => rfl
    simp [not_or]
  have hall : ∀ n a, Scans ((List.range' a n).mapM fun il => do
      let n ← payloadReadU32
      Loader.refuse (n > savedCap ∨ n > cap il) e
      return n : Loader σ (List Nat))
      (fun x => x.Holds (4 * n) ∧ ∀ i < n, wordAt x.rest i ≤ savedCap ∧ wordAt x.rest i ≤ cap (a + i))
      (fun x => (List.range n).map (wordAt x.rest)) fun _ => 4 * n := by
    intro n
    induction n with
    | zero =>
      intro a
      exact (Scans.pure []).congr (fun x => by simp [Input.Holds]) (fun _ _ => rfl) fun _ _ => rfl
    | succ n ih =>
      intro a
      have hsplit : 4 * (n + 1) = 4 + 4 * n := by omega
      rw [List.range'_succ, List.mapM_cons]
      refine (Scans.bind (hone a) fun c => Scans.bind (ih (a + 1)) fun cs => Scans.pure (c :: cs)).congr (fun x => ?_)
        (fun x _ => ?_) fun x _ => hsplit
      · have hskip : ∀ i, wordAt (x.skip 4).rest i = wordAt x.rest (1 + i) := fun i => wordAt_drop x.rest 1 i
        rw [hsplit, Input.holds_add]
        simp only [hskip, and_true]
        constructor
        · rintro ⟨⟨h4, hn⟩, hcap⟩
          refine ⟨⟨h4, hcap 0 (by omega)⟩, hn, fun i hi => ?_⟩
          rw [Nat.add_assoc]
          exact hcap (1 + i) (by omega)
        · rintro ⟨⟨h4, h0⟩, hn, hcap⟩
          refine ⟨⟨h4, hn⟩, fun i hi => ?_⟩
          cases i with
          | zero => exact h0
          | succ i =>
            have := hcap i (by omega)
            rwa [Nat.add_assoc, Nat.add_comm 1 i] at this
      · rw [List.range_succ_eq_map]
        simp only [List.map_cons, List.map_map]
        congr 1
        exact List.map_congr_left fun i _ => by
          rw [Function.comp_apply, Nat.succ_eq_one_add]
          exact (wordAt_drop x.rest 1 i).symm
  rw [readCounts, List.range_eq_range']
  exact (hall m.nLayer 0).congr (fun x => by simp) (fun _ _ => by rw [List.range_eq_range']) fun _ _ => rfl


/-! ## What a load asks of a file -/

section
variable {ctx : Nat}

/-- The header is one this session takes. -/
structure HeaderAccepted (s : Session m ctx) (h : Nat → Nat) : Prop where
  known : h 0 = payloadMagic ∧ h 1 = payloadVersion
  fits : h 2 ≤ ctx ∧ h 7 < ctx
  layout : h 8 = m.nLayer ∧ h 9 = m.nHeadDim ∧ h 10 = m.nIndexerHeadDim ∧ h 11 = m.nVocab
  window : h 5 = defaultRawCap m ctx
  ring : h 4 ≠ 0 ∧ h 12 = min (h 7) (h 5) ∧ h 12 ≤ h 4 ∧ h 12 ≤ s.rawCap
  comp : h 6 ≤ s.compCap

/-- How many compressed rows a layer of the session may be given. -/
def Session.countCap (s : Session m ctx) (il : Nat) : Nat :=
  match s.cache with
  | .cpu _ => sessionCpuCompCap m ctx
  | .graph _ => layerCompCap ctx (m.ratio il)

/-- The `n` counts from the front of `b` on are within what was saved and what fits. -/
def CountsAccepted (s : Session m ctx) (savedCap : Nat) (b : Bytes) : Prop :=
  ∀ il < m.nLayer, wordAt b il ≤ savedCap ∧ wordAt b il ≤ s.countCap il

theorem checkHeader_scans (m : Shape) (ctx rawCap compCap : Nat) (h : Nat → Nat) :
    Scans (checkHeader m ctx rawCap compCap h : Loader σ Unit)
      (fun _ => (h 2 ≤ ctx ∧ h 7 < ctx) ∧
        (h 8 = m.nLayer ∧ h 9 = m.nHeadDim ∧ h 10 = m.nIndexerHeadDim ∧ h 11 = m.nVocab) ∧
        h 5 = defaultRawCap m ctx ∧ (h 4 ≠ 0 ∧ h 12 = min (h 7) (h 5) ∧ h 12 ≤ h 4 ∧ h 12 ≤ rawCap) ∧
        h 6 ≤ compCap)
      (fun _ => ()) fun _ => 0 := by
  refine ((Scans.refuse _ _).bind fun _ => (Scans.refuse _ _).bind fun _ => (Scans.refuse _ _).bind fun _ =>
    (Scans.refuse _ _).bind fun _ => Scans.refuse _ _).congr (fun x => ?_) (fun _ _ => rfl) fun _ _ => rfl
  have hmin : (if h 7 < h 5 then h 7 else h 5) = min (h 7) (h 5) := by
    split <;> omega
  simp only [hmin, not_or, not_lt, not_not, ge_iff_le, not_le, gt_iff_lt, ne_eq]

/-! ## Before the checkpoint is given up, and after -/

/-- Every failure of `r` leaves the session without a valid checkpoint. -/
def Invalidates {α : Type} (r : Loader (Session m ctx) α) : Prop :=
  ∀ x e y, r x = .error e y → y.1.checkpointValid = false

/-- `r` cannot make the checkpoint valid. -/
def KeepsInvalid {α : Type} (r : Loader (Session m ctx) α) : Prop :=
  ∀ x, x.1.checkpointValid = false →
    (∀ a y, r x = .ok a y → y.1.checkpointValid = false) ∧ ∀ e y, r x = .error e y → y.1.checkpointValid = false

theorem KeepsInvalid.zoom {τ α : Type} {get : Session m ctx → τ} {put : τ → Session m ctx → Session m ctx}
    (r : Loader τ α) (hput : ∀ t s, (put t s).checkpointValid = s.checkpointValid) :
    KeepsInvalid (Loader.zoom get put r) := by
  intro x hx
  rw [Loader.zoom]
  cases r (get x.1, x.2) with
  | ok a y =>
    refine ⟨fun a' y' h => ?_, fun e y' h => by cases h⟩
    cases h
    rw [hput, hx]
  | error e y =>
    refine ⟨fun a' y' h => (by cases h), fun e y' h => ?_⟩
    cases h
    rw [hput, hx]

theorem payloadEnd_keepsInvalid : KeepsInvalid (payloadEnd : Loader (Session m ctx) Unit) := by
  intro x hx
  rw [payloadEnd]
  split
  · refine ⟨fun a y h => (by cases h), fun e y h => ?_⟩
    cases h
    exact hx
  · refine ⟨fun a y h => ?_, fun e y h => by cases h⟩
    cases h
    exact hx

theorem KeepsInvalid.bind_fails {α β : Type} {r : Loader (Session m ctx) α} {f : α → Loader (Session m ctx) β}
    (hr : KeepsInvalid r) (hf : ∀ a x, x.1.checkpointValid = false → ∀ e y, f a x = .error e y →
      y.1.checkpointValid = false) {x : Session m ctx × Input} (hx : x.1.checkpointValid = false) :
    ∀ e y, (r >>= f) x = .error e y → y.1.checkpointValid = false := by
  intro e y h
  change EStateM.bind r f x = _ at h
  rw [EStateM.bind] at h
  split at h
  · rename_i a x' hok
    exact hf a x' ((hr x hx).1 a x' hok) e y h
  · rename_i herr
    cases h
    exact (hr x hx).2 _ _ herr

/-- The part of a load from where it gives the checkpoint up. -/
theorem invalidates_after {f g : Session m ctx → Session m ctx} {r : Loader (Session m ctx) Unit}
    (hf : ∀ s, (f s).checkpointValid = false) (hr : KeepsInvalid r) :
    Invalidates (do
      Loader.update f
      r
      payloadEnd
      Loader.update g : Loader (Session m ctx) Unit) := by
  intro x e y h
  refine KeepsInvalid.bind_fails hr (fun _ x' hx' => payloadEnd_keepsInvalid.bind_fails (fun _ x'' _ e y h => ?_) hx')
    (x := (f x.1, x.2)) (hf x.1) e y h
  cases h

/-! ## The bytes a failed load leaves behind -/

/-- Where `r` fails on `s`, the session is as it was or without a valid checkpoint. -/
def Unmixed {α : Type} (r : Loader (Session m ctx) α) (s : Session m ctx) (x : Input) : Prop :=
  ∀ e y, r (s, x) = .error e y → y.1 = s ∨ y.1.checkpointValid = false

theorem unmixed_scans {α β : Type} {r : Loader (Session m ctx) α} {f : α → Loader (Session m ctx) β}
    {good : Input → Prop} {v : Input → α} {n : Input → Nat} (hr : Scans r good v n) (s : Session m ctx) (x : Input) :
    Unmixed (r >>= f) s x ↔ (good x → Unmixed (f (v x)) s (x.skip (n x))) := by
  have hrun : (r >>= f) (s, x) = match r (s, x) with
      | .ok a y => f a y
      | .error e y => .error e y := by
    show EStateM.bind r f _ = _
    rw [EStateM.bind]
    cases r (s, x) <;> rfl
  rw [Unmixed, hrun]
  by_cases hg : good x
  · rw [hr.ok s x hg]
    exact ⟨fun h _ => h, fun h => h hg⟩
  · obtain ⟨e, y, he⟩ := hr.fails s x hg
    rw [he]
    constructor
    · exact fun _ hgood => absurd hgood hg
    · intro _ e' y' h
      cases h
      exact Or.inl rfl

theorem Buf.write_front {n : Nat} (t : Buf n) {b : Bytes} (hb : b.length ≤ n) : t.write 0 b = t ↔ b <+: t.bytes := by
  have hwrite : (t.write 0 b).bytes = b ++ t.bytes.drop b.length := by
    rw [Buf.write_val (by omega)]
    simp
  rw [Buf.ext_iff, hwrite]
  constructor
  · exact fun h => ⟨_, h⟩
  · rintro ⟨r, hr⟩
    rw [← hr]
    simp

/-- The logits are read into the session itself, while its checkpoint is still valid. -/
theorem unmixed_logits {γ : Type} {counts : Loader (Session m ctx) γ} {good : Input → Prop} {v : Input → γ}
    {n : Input → Nat} (hc : Scans counts good v n) {tail : γ → Loader (Session m ctx) Unit}
    (htail : ∀ c, Invalidates (tail c)) {s : Session m ctx} (hv : s.checkpointValid = true) (x : Input) :
    Unmixed (Loader.zoom (·.logits) (fun b s => { s with logits := b }) (payloadReadInto (m.nVocab * 4)) >>= fun _ =>
        counts >>= tail) s x ↔
      ¬(m.nVocab * 4 ≤ x.remaining ∧ ¬x.rest.take (m.nVocab * 4) <+: s.logits.bytes ∧
        ¬(x.Holds (m.nVocab * 4) ∧ good (x.skip (m.nVocab * 4)))) := by
  have hsame : ∀ b : Bytes, b.length ≤ m.nVocab * 4 →
      (({ s with logits := s.logits.write 0 b } : Session m ctx) = s ∨
        ({ s with logits := s.logits.write 0 b } : Session m ctx).checkpointValid = false ↔ b <+: s.logits.bytes) := by
    intro b hb
    rw [← Buf.write_front s.logits hb]
    constructor
    · rintro (h | h)
      · exact congrArg Session.logits h
      · simp [hv] at h
    · intro h
      left
      rw [h]
  have hrun : ∀ (f : Unit → Loader (Session m ctx) Unit),
      (Loader.zoom (·.logits) (fun b s => { s with logits := b }) (payloadReadInto (m.nVocab * 4)) >>= f) (s, x) =
        if x.remaining < m.nVocab * 4 then .error "truncated session payload" (s, x)
        else if x.rest.length < m.nVocab * 4 then .error "failed to read session payload"
          ({ s with logits := s.logits.write 0 x.rest }, { x with rest := [] })
        else f () ({ s with logits := s.logits.write 0 (x.rest.take (m.nVocab * 4)) }, x.skip (m.nVocab * 4)) := by
    intro f
    show EStateM.bind _ _ _ = _
    rw [EStateM.bind, Loader.zoom, payloadReadInto]
    split_ifs <;> rfl
  rw [Unmixed, hrun]
  by_cases hrem : x.remaining < m.nVocab * 4
  · rw [if_pos hrem]
    constructor
    · exact fun _ h => absurd h.1 (by omega)
    · intro _ e y h
      cases h
      exact Or.inl rfl
  rw [if_neg hrem]
  by_cases hlen : x.rest.length < m.nVocab * 4
  · have htake : x.rest.take (m.nVocab * 4) = x.rest := List.take_of_length_le (by omega)
    have hnot : ¬x.Holds (m.nVocab * 4) := fun h => absurd h.2 (by omega)
    rw [if_pos hlen, htake]
    constructor
    · intro h hbad
      exact hbad.2.1 ((hsame _ (by omega)).mp (h _ _ rfl))
    · intro h e y hy
      cases hy
      exact (hsame _ (by omega)).mpr (by_contra fun hne => h ⟨by omega, hne, fun hg => hnot hg.1⟩)
  rw [if_neg hlen]
  have hholds : x.Holds (m.nVocab * 4) := ⟨by omega, by omega⟩
  have hwritten := hsame (x.rest.take (m.nVocab * 4)) (by rw [List.length_take]; omega)
  by_cases hg : good (x.skip (m.nVocab * 4))
  · constructor
    · exact fun _ h => h.2.2 ⟨hholds, hg⟩
    · intro _ e y h
      change EStateM.bind counts tail _ = _ at h
      rw [EStateM.bind, hc.ok _ _ hg] at h
      exact Or.inr (htail _ _ e y h)
  · obtain ⟨e, z, he⟩ := hc.fails { s with logits := s.logits.write 0 (x.rest.take (m.nVocab * 4)) } _ hg
    have hbind : (counts >>= tail) ({ s with logits := s.logits.write 0 (x.rest.take (m.nVocab * 4)) },
        x.skip (m.nVocab * 4)) =
          .error e ({ s with logits := s.logits.write 0 (x.rest.take (m.nVocab * 4)) }, z) := by
      show EStateM.bind counts tail _ = _
      rw [EStateM.bind, he]
    rw [hbind]
    constructor
    · intro h hbad
      exact hbad.2.1 (hwritten.mp (h _ _ rfl))
    · intro h e' y hy
      cases hy
      exact hwritten.mpr (by_contra fun hne => h ⟨by omega, hne, fun hg' => hg hg'.2⟩)

/-- The file is refused after its logits, not those of the session, were taken
    over: the header and the tokens are good, the payload has room for logits
    that differ from the session's in what the file has of them, and they or the
    row counts behind them are cut short or out of bounds. -/
def Session.Mixes (s : Session m ctx) (payloadBytes : Nat) (file : Bytes) : Prop :=
  let x : Input := ⟨payloadBytes, file⟩
  let tokens := 13 + wordAt file 7
  x.Holds (4 * tokens) ∧ HeaderAccepted s (wordAt file) ∧
    4 * tokens + m.nVocab * 4 ≤ payloadBytes ∧
    ¬(file.drop (4 * tokens)).take (m.nVocab * 4) <+: s.logits.bytes ∧
    ¬(x.Holds (4 * (tokens + m.nVocab + 2 * m.nLayer)) ∧
      CountsAccepted s (wordAt file 6) (file.drop (4 * (tokens + m.nVocab))) ∧
      CountsAccepted s (wordAt file 6) (file.drop (4 * (tokens + m.nVocab + m.nLayer))))

/-- The row counts of all layers, as both backends read them. -/
def readLayerCounts (s : Session m ctx) (savedCap : Nat) : Loader (Session m ctx) (List Nat × List Nat) := do
  let nComp ← readCounts m savedCap s.countCap "KV checkpoint has invalid compressed row count"
  let nIndexComp ← readCounts m savedCap s.countCap "KV checkpoint has invalid indexer row count"
  return (nComp, nIndexComp)

theorem readLayerCounts_scans (s : Session m ctx) (savedCap : Nat) :
    Scans (readLayerCounts s savedCap)
      (fun x => x.Holds (4 * (2 * m.nLayer)) ∧ CountsAccepted s savedCap x.rest ∧
        CountsAccepted s savedCap (x.rest.drop (4 * m.nLayer)))
      (fun x => ((List.range m.nLayer).map (wordAt x.rest),
        (List.range m.nLayer).map (wordAt (x.rest.drop (4 * m.nLayer)))))
      fun _ => 4 * m.nLayer + 4 * m.nLayer := by
  refine ((readCounts_scans (m := m) savedCap s.countCap _).bind fun nComp =>
    (readCounts_scans (m := m) savedCap s.countCap _).bind fun nIndexComp => Scans.pure (nComp, nIndexComp)).congr
      (fun x => ?_) (fun x _ => rfl) fun x _ => rfl
  have hsplit : 4 * (2 * m.nLayer) = 4 * m.nLayer + 4 * m.nLayer := by omega
  rw [hsplit, Input.holds_add]
  simp only [CountsAccepted, Input.skip, and_true]
  tauto

/-- What is left of a load behind its header. -/
def loadTail (s : Session m ctx) (tail : List Int32 → List Nat × List Nat → Loader (Session m ctx) Unit)
    (h : Nat → Nat) : Loader (Session m ctx) Unit := do
  checkHeader m ctx s.rawCap s.compCap h
  let tokens ← Loader.times (h 7) do
    let t ← payloadReadU32
    return (UInt32.ofNat t).toInt32
  Loader.zoom (·.logits) (fun b s => { s with logits := b }) (payloadReadInto (m.nVocab * 4))
  readLayerCounts s (h 6) >>= tail tokens

/-- Both backends give the checkpoint up at the same place, behind the row counts. -/
theorem loadSession_eq (compF16 : Bool) (s : Session m ctx) :
    ∃ tail : (Nat → Nat) → List Int32 → List Nat × List Nat → Loader (Session m ctx) Unit,
      (∀ h t c, Invalidates (tail h t c)) ∧ loadSession compF16 s.cache = (do
      let h ← Loader.times 13 payloadReadU32
      Loader.refuse (h.getD 0 0 ≠ payloadMagic ∨ h.getD 1 0 ≠ payloadVersion) "unsupported session payload version"
      loadTail s (tail fun i => h.getD i 0) fun i => h.getD i 0) := by
  cases hc : s.cache with
  | cpu layer =>
    refine ⟨fun h tokens c => do
      Loader.update fun s => { s with checkpointValid := false, mtpDraftValid := false }
      Loader.zoom (fun _ => fun il => kvCacheInit m ctx il) (fun layer s => { s with cache := .cpu layer })
        (loadLayers m fun il => loadCpuLayer (h 12) (c.1.getD il 0) (c.2.getD il 0))
      payloadEnd
      Loader.update fun s => { s with checkpoint := tokens, checkpointValid := true, mtpDraftValid := false },
      fun h t c => invalidates_after (fun _ => rfl) (KeepsInvalid.zoom _ fun _ _ => rfl), ?_⟩
    have hcap : s.countCap = fun _ => sessionCpuCompCap m ctx := by
      funext il
      rw [Session.countCap, hc]
    simp only [loadSession, loadCpu, loadTail, readCheckpoint, readLayerCounts, Session.rawCap, Session.compCap, hc,
      hcap, bind_assoc, pure_bind]
  | graph g =>
    refine ⟨fun h tokens c => do
      Loader.update fun s => { s with checkpointValid := false, mtpDraftValid := false }
      Loader.zoom (fun _ => g.layer) (fun layer s => { s with cache := .graph { g with layer := layer, mtpNRaw := 0 } })
        (loadLayers m fun il => loadGraphLayer compF16 (h 7) (h 12) (c.1.getD il 0) (c.2.getD il 0))
      payloadEnd
      Loader.update fun s =>
        { s with checkpoint := tokens, checkpointValid := true, mtpDraftValid := false,
                 cache := loadGraph.setCounters c.1 c.2 s.cache },
      fun h t c => invalidates_after (fun _ => rfl) (KeepsInvalid.zoom _ fun _ _ => rfl), ?_⟩
    have hcap : s.countCap = fun il => layerCompCap ctx (m.ratio il) := by
      funext il
      rw [Session.countCap, hc]
    simp only [loadSession, loadGraph, loadTail, readCheckpoint, readLayerCounts, Session.rawCap, Session.compCap, hc,
      hcap, bind_assoc, pure_bind]

theorem headerAccepted_congr {s : Session m ctx} {h h' : Nat → Nat} (hh : ∀ i < 13, h i = h' i) :
    HeaderAccepted s h ↔ HeaderAccepted s h' := by
  suffices hone : ∀ h h' : Nat → Nat, (∀ i < 13, h i = h' i) → HeaderAccepted s h → HeaderAccepted s h' from
    ⟨hone h h' hh, hone h' h fun i hi => (hh i hi).symm⟩
  intro h h' hh ha
  have h0 := hh 0 (by omega)
  have h1 := hh 1 (by omega)
  have h2 := hh 2 (by omega)
  have h4 := hh 4 (by omega)
  have h5 := hh 5 (by omega)
  have h6 := hh 6 (by omega)
  have h7 := hh 7 (by omega)
  have h8 := hh 8 (by omega)
  have h9 := hh 9 (by omega)
  have h10 := hh 10 (by omega)
  have h11 := hh 11 (by omega)
  have h12 := hh 12 (by omega)
  exact ⟨h0 ▸ h1 ▸ ha.known, h2 ▸ h7 ▸ ha.fits, h8 ▸ h9 ▸ h10 ▸ h11 ▸ ha.layout, h5 ▸ ha.window,
    h4 ▸ h12 ▸ h7 ▸ h5 ▸ ha.ring, h6 ▸ ha.comp⟩

theorem loadTail_unmixed {s : Session m ctx} (hv : s.checkpointValid = true)
    {tail : List Int32 → List Nat × List Nat → Loader (Session m ctx) Unit} (htail : ∀ t c, Invalidates (tail t c))
    {h : Nat → Nat} (hknown : h 0 = payloadMagic ∧ h 1 = payloadVersion) (x : Input) :
    Unmixed (loadTail s tail h) s x ↔
      ¬(HeaderAccepted s h ∧ x.Holds (4 * h 7) ∧ 4 * h 7 + m.nVocab * 4 ≤ x.remaining ∧
        ¬(x.skip (4 * h 7)).rest.take (m.nVocab * 4) <+: s.logits.bytes ∧
        ¬((x.skip (4 * h 7)).Holds (m.nVocab * 4) ∧ ((x.skip (4 * h 7)).skip (m.nVocab * 4)).Holds (4 * (2 * m.nLayer)) ∧
          CountsAccepted s (h 6) ((x.skip (4 * h 7)).skip (m.nVocab * 4)).rest ∧
          CountsAccepted s (h 6) (((x.skip (4 * h 7)).skip (m.nVocab * 4)).rest.drop (4 * m.nLayer)))) := by
  have htoken : Scans (do let t ← payloadReadU32; return (UInt32.ofNat t).toInt32 : Loader (Session m ctx) Int32)
      (·.Holds 4) (fun x => (UInt32.ofNat (wordAt x.rest 0)).toInt32) fun _ => 4 :=
    (payloadReadU32_scans.bind fun t => Scans.pure _).congr (fun x => by simp) (fun _ _ => rfl) fun _ _ => rfl
  have hheader : HeaderAccepted s h ↔ (h 2 ≤ ctx ∧ h 7 < ctx) ∧
      (h 8 = m.nLayer ∧ h 9 = m.nHeadDim ∧ h 10 = m.nIndexerHeadDim ∧ h 11 = m.nVocab) ∧
      h 5 = defaultRawCap m ctx ∧ (h 4 ≠ 0 ∧ h 12 = min (h 7) (h 5) ∧ h 12 ≤ h 4 ∧ h 12 ≤ s.rawCap) ∧
      h 6 ≤ s.compCap :=
    ⟨fun ha => ⟨ha.fits, ha.layout, ha.window, ha.ring, ha.comp⟩, fun ⟨h1, h2, h3, h4, h5⟩ => ⟨hknown, h1, h2, h3, h4, h5⟩⟩
  have hroom : x.Holds (4 * h 7) → (m.nVocab * 4 ≤ (x.skip (4 * h 7)).remaining ↔
      4 * h 7 + m.nVocab * 4 ≤ x.remaining) := by
    intro hx
    have := hx.1
    show m.nVocab * 4 ≤ x.remaining - 4 * h 7 ↔ _
    omega
  rw [loadTail, unmixed_scans (checkHeader_scans _ _ _ _ _),
    unmixed_scans (times_scans (v := fun t => (UInt32.ofNat t).toInt32) htoken _),
    unmixed_logits (readLayerCounts_scans s _) (htail _) hv, Input.skip_zero, ← hheader]
  constructor
  · rintro hall ⟨ha, hx, hr, hdiff, hbad⟩
    exact hall ha hx ⟨(hroom hx).mpr hr, hdiff, hbad⟩
  · rintro hnot ha hx ⟨hr, hdiff, hbad⟩
    exact hnot ⟨ha, hx, (hroom hx).mp hr, hdiff, hbad⟩

/-- What mixes, counted from behind the header on. -/
theorem Session.mixes_iff (s : Session m ctx) (x : Input) :
    s.Mixes x.remaining x.rest ↔
      x.Holds (4 * 13) ∧ HeaderAccepted s (wordAt x.rest) ∧ (x.skip (4 * 13)).Holds (4 * wordAt x.rest 7) ∧
        4 * wordAt x.rest 7 + m.nVocab * 4 ≤ (x.skip (4 * 13)).remaining ∧
        ¬((x.skip (4 * 13)).skip (4 * wordAt x.rest 7)).rest.take (m.nVocab * 4) <+: s.logits.bytes ∧
        ¬(((x.skip (4 * 13)).skip (4 * wordAt x.rest 7)).Holds (m.nVocab * 4) ∧
          (((x.skip (4 * 13)).skip (4 * wordAt x.rest 7)).skip (m.nVocab * 4)).Holds (4 * (2 * m.nLayer)) ∧
          CountsAccepted s (wordAt x.rest 6)
            (((x.skip (4 * 13)).skip (4 * wordAt x.rest 7)).skip (m.nVocab * 4)).rest ∧
          CountsAccepted s (wordAt x.rest 6)
            ((((x.skip (4 * 13)).skip (4 * wordAt x.rest 7)).skip (m.nVocab * 4)).rest.drop (4 * m.nLayer))) := by
  have htokens : 4 * (13 + wordAt x.rest 7) = 4 * 13 + 4 * wordAt x.rest 7 := by omega
  have hcomp : 4 * (13 + wordAt x.rest 7 + m.nVocab) = 4 * 13 + 4 * wordAt x.rest 7 + m.nVocab * 4 := by omega
  have hindex : 4 * (13 + wordAt x.rest 7 + m.nVocab + m.nLayer) =
      4 * 13 + 4 * wordAt x.rest 7 + m.nVocab * 4 + 4 * m.nLayer := by omega
  have hcounts : 4 * (13 + wordAt x.rest 7 + m.nVocab + 2 * m.nLayer) =
      4 * 13 + 4 * wordAt x.rest 7 + m.nVocab * 4 + 4 * (2 * m.nLayer) := by omega
  simp only [Session.Mixes, hcounts, hcomp, hindex, htokens, Input.holds_add, Input.skip_skip]
  simp only [Input.skip, List.drop_drop]
  constructor
  · rintro ⟨⟨h13, htok⟩, hhead, hroom, hdiff, hbad⟩
    exact ⟨h13, hhead, htok, by omega, hdiff, fun h => hbad (by tauto)⟩
  · rintro ⟨h13, hhead, htok, hroom, hdiff, hbad⟩
    have hrem : 4 * 13 ≤ x.remaining := h13.1
    exact ⟨⟨h13, htok⟩, hhead, by omega, hdiff, fun h => hbad (by tauto)⟩

theorem loadSession_unmixed (compF16 : Bool) {s : Session m ctx} (hv : s.checkpointValid = true) (x : Input) :
    Unmixed (loadSession compF16 s.cache) s x ↔ ¬s.Mixes x.remaining x.rest := by
  obtain ⟨tail, htail, hload⟩ := loadSession_eq compF16 s
  have hword : ∀ i < 13, ((List.range 13).map fun i => wordAt x.rest i).getD i 0 = wordAt x.rest i := by
    intro i hi
    rw [List.getD_eq_getElem?_getD, List.getElem?_map, List.getElem?_range hi, Option.map_some, Option.getD_some]
  have hknown : ∀ h : List Nat, ¬(h.getD 0 0 ≠ payloadMagic ∨ h.getD 1 0 ≠ payloadVersion) ↔
      h.getD 0 0 = payloadMagic ∧ h.getD 1 0 = payloadVersion := fun h => by rw [not_or, not_not, not_not]
  rw [hload, unmixed_scans (times_scans (v := fun t => t) payloadReadU32_scans 13), unmixed_scans (Scans.refuse _ _),
    hknown, Input.skip_zero]
  generalize (List.range 13).map (fun i => wordAt x.rest i) = h at hword
  rw [s.mixes_iff, ← headerAccepted_congr hword, ← hword 6 (by omega), ← hword 7 (by omega)]
  constructor
  · rintro hall ⟨h13, ha, hrest⟩
    exact (loadTail_unmixed hv (htail _) ha.known _).mp (hall h13 ha.known) ⟨ha, hrest⟩
  · intro hnot h13 hmagic
    exact (loadTail_unmixed hv (htail _) hmagic _).mpr fun ⟨ha, hrest⟩ => hnot ⟨h13, ha, hrest⟩

theorem wordAt_words (r : Bytes) : ∀ (ws : List Nat) (i : Nat), i < ws.length →
    wordAt (ws.flatMap putU32 ++ r) i = ws.getD i 0 % 2 ^ 32
  | w :: ws, 0, _ => by
    rw [List.flatMap_cons, List.append_assoc, wordAt, Nat.mul_zero, List.drop_zero, ← getU32_take, List.take_left' (length_putU32 w),
      getU32_putU32, List.getD_cons_zero]
  | w :: ws, i + 1, h => by
    rw [List.getD_cons_succ, ← wordAt_words r ws i (by simpa using h), Nat.add_comm i 1, ← wordAt_drop,
      List.flatMap_cons, List.append_assoc, List.drop_left' (length_putU32 w)]

/-- A checkpoint without tokens, good up to its logits; the row count behind
    them is more than it has room for. -/
def corruptCheckpoint : Bytes :=
  [payloadMagic, payloadVersion, 200, 200, 128, 128, 0, 0, 43, 512, 128, 129280, 0].flatMap putU32 ++
    (List.replicate (129280 * 4) 1 ++ putU32 1)

theorem corruptCheckpoint_mixes :
    (sampleSession 200 (by decide) (by decide)).Mixes corruptCheckpoint.length corruptCheckpoint := by
  have hV : shapeFlash.nVocab = 129280 := rfl
  have hL : shapeFlash.nLayer = 43 := rfl
  have hlen : corruptCheckpoint.length = 52 + 129280 * 4 + 4 := by
    rw [corruptCheckpoint, List.length_append, List.length_append, List.length_replicate]
    rfl
  have hword : ∀ i < 13, wordAt corruptCheckpoint i =
      [payloadMagic, payloadVersion, 200, 200, 128, 128, 0, 0, 43, 512, 128, 129280, 0].getD i 0 % 2 ^ 32 :=
    fun i hi => wordAt_words _ _ i hi
  have h2 : wordAt corruptCheckpoint 2 = 200 := hword 2 (by decide)
  have h4 : wordAt corruptCheckpoint 4 = 128 := hword 4 (by decide)
  have h5 : wordAt corruptCheckpoint 5 = 128 := hword 5 (by decide)
  have h6 : wordAt corruptCheckpoint 6 = 0 := hword 6 (by decide)
  have h7 : wordAt corruptCheckpoint 7 = 0 := hword 7 (by decide)
  have h12 : wordAt corruptCheckpoint 12 = 0 := hword 12 (by decide)
  have hfront : ([payloadMagic, payloadVersion, 200, 200, 128, 128, 0, 0, 43, 512, 128, 129280, 0].flatMap putU32).length =
      4 * 13 := rfl
  have hlogits : (corruptCheckpoint.drop (4 * 13)).take (129280 * 4) = List.replicate (129280 * 4) 1 := by
    rw [corruptCheckpoint, List.drop_left' hfront, List.take_left' List.length_replicate]
  have hother : ∀ n, ¬List.replicate (n + 1) (1 : UInt8) <+: List.replicate (n + 1) 0 := by
    rintro n ⟨r, hr⟩
    simp [List.replicate_succ] at hr
  simp only [Session.Mixes, h7, Nat.add_zero, hV, hL, hlogits]
  have hheader : HeaderAccepted (sampleSession 200 (by decide) (by decide)) (wordAt corruptCheckpoint) :=
    { known := ⟨hword 0 (by decide), hword 1 (by decide)⟩
      fits := by omega
      layout := ⟨hword 8 (by decide), hword 9 (by decide), hword 10 (by decide), hword 11 (by decide)⟩
      window := hword 5 (by decide)
      ring := by omega
      comp := by omega }
  refine ⟨⟨?_, ?_⟩, hheader, by omega, hother 517119, ?_⟩
  · show 4 * 13 ≤ corruptCheckpoint.length
    omega
  · show 4 * 13 ≤ corruptCheckpoint.length
    omega
  · rintro ⟨⟨-, hrest⟩, -⟩
    have hrest : 4 * (13 + 129280 + 2 * 43) ≤ corruptCheckpoint.length := hrest
    omega

end

end Ds4.Engine
