import Ds4.Server.StreamDeltas

/- Stop strings and the live streams, in the decode loop of `generate_job`
   (ds4_server.c).

   PROVED here (`stop_holds`): along any pieces a channel sends nothing from the stop
   occurrence that ends the generation on, exactly when no end of the channel is found
   behind the start of that occurrence; and without a stop all of the channel is sent.
   The ends of the reasoning and of the text are searched for in all of the text, so a
   stop string that overlaps one of them gets out (`overlapping_stop_leaks`).

   Correspondence (C ↔ Lean):
     `stop_list`                  ↔ `StopList`
     `stop_list_find_from`        ↔ `stopListFindFrom`, the length of the stop is not used
     `stop_list_stream_safe_len`  ↔ `stopListStreamSafeLen`
     the stream updates of a turn ↔ `heldDeltas`, for one channel -/
namespace Ds4.Server
open Bytes

/-! ## Stop strings -/

/-- `stop_list_push` takes no empty string. -/
structure StopList where
  strings : List Bytes
  nonempty : ∀ s ∈ strings, s ≠ []

def StopList.maxLen (stops : StopList) : Nat := (stops.strings.map List.length).foldl max 0

/-- The earliest occurrence at or behind `scan`. -/
def stopListFindFrom (stops : StopList) (text : Bytes) (scan : Nat) : Option Nat :=
  stops.strings.foldl (fun best s =>
    match strstr s (text.drop scan), best with
    | none, _ => best
    | some (before, _), none => some (scan + before.length)
    | some (before, _), some pos => if scan + before.length < pos then some (scan + before.length) else some pos) none

def stopListStreamSafeLen (stops : StopList) (textLen : Nat) : Nat :=
  if stops.strings = [] ∨ stops.maxLen ≤ 1 then textLen else textLen - (stops.maxLen - 1)

/-- Where the next search starts. -/
def nextStopScan (stops : StopList) (textLen scan : Nat) : Nat :=
  if 1 < stops.maxLen then textLen - (stops.maxLen - 1) else scan

/-! ## The loop -/

def isPlain : StreamPath → Bool
  | .plain => true
  | _ => false

/-- How much of the text the streams may send; the chat streams get no part of a character. -/
def allowedLen (p : StreamPath) (stops : StopList) (text : Bytes) : Nat :=
  let safe := stopListStreamSafeLen stops text.length
  if isPlain p then safe else utf8StreamSafeLen (text.take safe) false

/-- What a channel sends from `sent` on, along the pieces. A stop cuts the text, and the
    last update has what is left. -/
def heldDeltas (stops : StopList) (p : StreamPath) : (pieces : List Bytes) → (text : Bytes) → (scan sent : Nat) → List Bytes
  | [], text, _, sent => [(text.drop sent).take (update p (text.drop sent) true).1]
  | piece :: pieces, text, scan, sent =>
    let text := text ++ piece
    match stopListFindFrom stops text scan with
    | some pos =>
      let r := update p (inSight p (text.drop sent) (pos - sent)) (isPlain p)
      let left := (text.take pos).drop (sent + r.1)
      if r.2 then [(text.drop sent).take r.1]
      else [(text.drop sent).take r.1, left.take (update p left true).1]
    | none =>
      let r := update p (inSight p (text.drop sent) (allowedLen p stops text - sent)) false
      if r.2 then [(text.drop sent).take r.1]
      else (text.drop sent).take r.1 :: heldDeltas stops p pieces text (nextStopScan stops text.length scan) (sent + r.1)

/-- The start of the occurrence that ends the generation. -/
def stopAt (stops : StopList) : (pieces : List Bytes) → (text : Bytes) → (scan : Nat) → Option Nat
  | [], _, _ => none
  | piece :: pieces, text, scan =>
    match stopListFindFrom stops (text ++ piece) scan with
    | some pos => some pos
    | none => stopAt stops pieces (text ++ piece) (nextStopScan stops (text ++ piece).length scan)

/-- Where the end of a channel that starts at `start` is first found, up to the stop. -/
def firstEnd (stops : StopList) (p : StreamPath) (start : Nat) : (pieces : List Bytes) → (text : Bytes) → (scan : Nat) → Option Nat
  | [], _, _ => none
  | piece :: pieces, text, scan =>
    let text := text ++ piece
    let r := update p (text.drop start) false
    if searchesAll p && r.2 then some (start + r.1)
    else
      match stopListFindFrom stops text scan with
      | some _ => none
      | none => firstEnd stops p start pieces text (nextStopScan stops text.length scan)

/-! ## Searches -/

theorem foldl_max_le (ls : List Nat) (k : Nat) : k ≤ ls.foldl max k ∧ ∀ n ∈ ls, n ≤ ls.foldl max k := by
  induction ls generalizing k with
  | nil => exact ⟨Nat.le_refl _, by simp⟩
  | cons m ls ih =>
    obtain ⟨h1, h2⟩ := ih (max k m)
    refine ⟨Nat.le_trans (Nat.le_max_left _ _) h1, fun n hn => ?_⟩
    rcases List.mem_cons.mp hn with rfl | hn
    · exact Nat.le_trans (Nat.le_max_right _ _) h1
    · exact h2 n hn

theorem length_le_maxLen {stops : StopList} {s : Bytes} (hs : s ∈ stops.strings) : s.length ≤ stops.maxLen :=
  (foldl_max_le _ 0).2 _ (List.mem_map_of_mem hs)

theorem stopListStreamSafeLen_eq (stops : StopList) (n : Nat) : stopListStreamSafeLen stops n = n - (stops.maxLen - 1) := by
  rw [stopListStreamSafeLen]
  split
  next h =>
    have hlen : stops.maxLen ≤ 1 := by
      rcases h with h | h
      · simp [StopList.maxLen, h]
      · exact h
    omega
  next => rfl

/-- A find is an occurrence, and nothing is missed. -/
theorem stopListFindFrom_cases (stops : StopList) (text : Bytes) (scan : Nat) :
    (∃ s ∈ stops.strings, ∃ b r, strstr s (text.drop scan) = some (b, r) ∧
      stopListFindFrom stops text scan = some (scan + b.length)) ∨
    (stopListFindFrom stops text scan = none ∧ ∀ s ∈ stops.strings, strstr s (text.drop scan) = none) := by
  have hloop : ∀ (strings : List Bytes) (best : Option Nat), (∀ s ∈ strings, s ∈ stops.strings) →
      (∀ pos, best = some pos → ∃ s ∈ stops.strings, ∃ b r, strstr s (text.drop scan) = some (b, r) ∧ pos = scan + b.length) →
      let found := strings.foldl (fun best s =>
        match strstr s (text.drop scan), best with
        | none, _ => best
        | some (before, _), none => some (scan + before.length)
        | some (before, _), some pos => if scan + before.length < pos then some (scan + before.length) else some pos) best
      (∃ pos, found = some pos ∧ ∃ s ∈ stops.strings, ∃ b r, strstr s (text.drop scan) = some (b, r) ∧ pos = scan + b.length) ∨
      (found = none ∧ best = none ∧ ∀ s ∈ strings, strstr s (text.drop scan) = none) := by
    intro strings
    induction strings with
    | nil =>
      intro best _ hbest
      cases best with
      | none => exact .inr ⟨rfl, rfl, by simp⟩
      | some pos => exact .inl ⟨pos, rfl, hbest pos rfl⟩
    | cons s strings ih =>
      intro best hin hbest
      have hrest : ∀ s ∈ strings, s ∈ stops.strings := fun t ht => hin t (.tail _ ht)
      rw [List.foldl_cons]
      cases hs : strstr s (text.drop scan) with
      | none =>
        rcases ih best hrest hbest with h | ⟨h, hnone, hall⟩
        · exact .inl h
        · refine .inr ⟨h, hnone, fun t ht => ?_⟩
          rcases List.mem_cons.mp ht with rfl | ht
          · exact hs
          · exact hall t ht
      | some x =>
        obtain ⟨b, r⟩ := x
        have hhere : ∃ s ∈ stops.strings, ∃ b' r, strstr s (text.drop scan) = some (b', r) ∧
            scan + b.length = scan + b'.length := ⟨s, hin s (.head _), b, r, hs, rfl⟩
        cases best with
        | none =>
          rcases ih (some (scan + b.length)) hrest (fun pos h => by cases h; exact hhere) with h | ⟨-, h, -⟩
          · exact .inl h
          · cases h
        | some pos =>
          dsimp only
          split
          · rcases ih (some (scan + b.length)) hrest (fun pos h => by cases h; exact hhere) with h | ⟨-, h, -⟩
            · exact .inl h
            · cases h
          · rcases ih (some pos) hrest hbest with h | ⟨-, h, -⟩
            · exact .inl h
            · cases h
  rcases hloop stops.strings none (fun _ h => h) (fun pos h => by cases h) with ⟨pos, h, s, hs, b, r, hstr, rfl⟩ | ⟨h, -, hall⟩
  · exact .inl ⟨s, hs, b, r, hstr, h⟩
  · exact .inr ⟨h, hall⟩

/-- No stop string is in the text, and the next search starts early enough for one that
    is not in it whole. -/
structure Searched (stops : StopList) (text : Bytes) (scan : Nat) : Prop where
  absent : ∀ s ∈ stops.strings, strstr s text = none
  early : scan ≤ text.length - (stops.maxLen - 1)

/-- An occurrence that a longer text has begins in the part that was held. -/
theorem Searched.held {stops : StopList} {text piece : Bytes} {scan : Nat} (h : Searched stops text scan) {s : Bytes}
    (hs : s ∈ stops.strings) {i : Nat} (hi : startsWith s ((text ++ piece).drop i) = true) :
    text.length - (stops.maxLen - 1) ≤ i := by
  by_contra hlt
  have hlen := length_le_maxLen hs
  have hpos := List.length_pos_iff.mpr (stops.nonempty s hs)
  obtain ⟨r, hr⟩ := startsWith_iff.mp hi
  rw [List.drop_append_of_le_length (by omega)] at hr
  have hfit : s.length ≤ (text.drop i).length := by
    rw [List.length_drop]
    omega
  obtain ⟨z, hz⟩ := List.prefix_of_prefix_length_le (show s <+: text.drop i ++ piece from ⟨r, hr.symm⟩)
    (List.prefix_append _ _) hfit
  refine absurd (h.absent s hs) ?_
  apply strstr_of_infix
  exact ⟨text.take i, z, by rw [List.append_assoc, hz, List.take_append_drop]⟩

theorem Searched.next {stops : StopList} {text piece : Bytes} {scan : Nat} (h : Searched stops text scan)
    (hfind : stopListFindFrom stops (text ++ piece) scan = none) :
    Searched stops (text ++ piece) (nextStopScan stops (text ++ piece).length scan) := by
  rcases stopListFindFrom_cases stops (text ++ piece) scan with ⟨s, -, b, r, -, hsome⟩ | ⟨-, hall⟩
  · rw [hfind] at hsome
    cases hsome
  · refine ⟨fun s hs => ?_, ?_⟩
    · cases hstr : strstr s (text ++ piece) with
      | none => rfl
      | some x =>
        obtain ⟨b, r⟩ := x
        obtain ⟨hsplit, hstart⟩ := strstr_sound hstr
        have hat : startsWith s ((text ++ piece).drop b.length) = true := by rwa [hsplit, List.drop_left]
        have hheld := h.held hs hat
        have hscan : scan ≤ b.length := Nat.le_trans h.early hheld
        have hdrop := strstr_drop hstr hscan
        rw [hall s hs] at hdrop
        cases hdrop
    · rw [nextStopScan]
      have hearly := h.early
      split
      · exact Nat.le_refl _
      · rw [List.length_append]
        omega

theorem Searched.hit {stops : StopList} {text piece : Bytes} {scan pos : Nat} (h : Searched stops text scan)
    (hfind : stopListFindFrom stops (text ++ piece) scan = some pos) : text.length - (stops.maxLen - 1) ≤ pos := by
  rcases stopListFindFrom_cases stops (text ++ piece) scan with ⟨s, hs, b, r, hstr, hsome⟩ | ⟨hnone, -⟩
  · rw [hfind] at hsome
    obtain rfl := Option.some.inj hsome
    obtain ⟨hsplit, hstart⟩ := strstr_sound hstr
    apply h.held hs
    rwa [← List.drop_drop, hsplit, List.drop_left]
  · rw [hfind] at hnone
    cases hnone

theorem Searched.stop {stops : StopList} {pieces : List Bytes} {text : Bytes} {scan pos : Nat} (h : Searched stops text scan)
    (hstop : stopAt stops pieces text scan = some pos) : text.length - (stops.maxLen - 1) ≤ pos := by
  induction pieces generalizing text scan with
  | nil => cases hstop
  | cons piece pieces ih =>
    rw [stopAt] at hstop
    cases hfind : stopListFindFrom stops (text ++ piece) scan with
    | some q =>
      rw [hfind] at hstop
      cases hstop
      exact h.hit hfind
    | none =>
      rw [hfind] at hstop
      have hle := ih (h.next hfind) hstop
      rw [List.length_append] at hle
      omega

/-! ## Updates in sight -/

theorem update_le (p : StreamPath) (seg : Bytes) (final : Bool) : (update p seg final).1 ≤ seg.length := by
  have hfound : ∀ {f : Bytes → Option (Bytes × Bytes)} {b r}, Finder f → f seg = some (b, r) → b.length ≤ seg.length := by
    intro f b r hf h
    rw [hf.sound h, List.length_append]
    exact Nat.le_add_right _ _
  have hlimit : (update p seg false).2 = false → (update p seg false).1 ≤ seg.length := by
    intro hon
    obtain ⟨n, hn⟩ := limit_utf8 p seg hon
    rw [hn]
    exact Nat.le_trans (utf8StreamSafeLen_le _ _) (by rw [List.length_take]; omega)
  cases p with
  | plain =>
    cases final with
    | false => exact hlimit rfl
    | true => exact Nat.le_refl _
  | thinking hasTools =>
    cases hclose : strstr thinkClose seg with
    | some r =>
      simp only [update, hclose]
      exact hfound (finder_strstr _) hclose
    | none =>
      cases hmark : (if hasTools = true then findAnyToolStart seg else none) with
      | some r =>
        simp only [update, hclose, hmark]
        split at hmark
        · exact hfound finder_tool hmark
        · cases hmark
      | none =>
        cases final with
        | false => exact hlimit (by simp [update, hclose, hmark])
        | true => simp [update, hclose, hmark]
  | text hasTools =>
    cases hmark : (if hasTools = true then findAnyToolStart seg else none) with
    | some r =>
      obtain ⟨a, y⟩ := r
      cases hasTools with
      | false => cases hmark
      | true =>
        rw [if_pos rfl] at hmark
        show textStreamSafeLimit seg true final ≤ seg.length
        rw [textStreamSafeLimit, if_neg (by decide), hmark]
        refine Nat.le_trans (utf8StreamSafeLen_le _ _) (Nat.le_trans ?_ (hfound finder_tool hmark))
        rw [List.length_take]
        exact Nat.min_le_right _ _
    | none =>
      cases final with
      | false => exact hlimit (by simp [update, hmark])
      | true =>
        show textStreamSafeLimit seg hasTools true ≤ seg.length
        cases hasTools with
        | false =>
          show utf8StreamSafeLen seg true ≤ seg.length
          exact utf8StreamSafeLen_le _ _
        | true =>
          rw [if_pos rfl] at hmark
          rw [textStreamSafeLimit, if_neg (by decide), hmark]
          dsimp only
          rw [if_pos rfl]
          exact utf8StreamSafeLen_le _ _
  | value style isString =>
    cases hend : strstr (dsmlSyntax style).paramEnd seg with
    | some r =>
      simp only [update, hend]
      exact hfound (finder_strstr _) hend
    | none => exact hlimit (by simp [update, hend])

/-- An end in sight stays in sight. -/
theorem update_seen {p : StreamPath} {seg : Bytes} (u : Bytes) (h : (update p seg false).2 = true) :
    (update p (seg ++ u) false).2 = true := by
  cases p with
  | plain => cases h
  | thinking hasTools =>
    simp only [update] at h ⊢
    cases hclose : strstr thinkClose seg with
    | some r => rw [(finder_strstr _).seen u hclose]
    | none =>
      cases hmark : (if hasTools = true then findAnyToolStart seg else none) with
      | none =>
        rw [hclose, hmark] at h
        cases h
      | some r =>
        have hmark' : (if hasTools = true then findAnyToolStart (seg ++ u) else none) = some (r.1, r.2 ++ u) := by
          split at hmark
          next htools =>
            rw [if_pos htools]
            exact finder_tool.seen u hmark
          next => cases hmark
        rw [hmark']
        cases strstr thinkClose (seg ++ u) <;> rfl
  | text hasTools =>
    cases hasTools with
    | false => cases h
    | true =>
      simp only [update, if_true, Bool.or_false] at h ⊢
      obtain ⟨r, hr⟩ := Option.isSome_iff_exists.mp h
      rw [finder_tool.seen u hr]
      rfl
  | value style isString =>
    simp only [update] at h ⊢
    cases hend : strstr (dsmlSyntax style).paramEnd seg with
    | none =>
      rw [hend] at h
      cases h
    | some r => rw [(finder_strstr _).seen u hend]

/-- Where no end is in sight in all of the text, there is none in the allowed part. -/
theorem inSight_allowed {p : StreamPath} {seen : Bytes} {allowed : Nat}
    (h : ¬(searchesAll p && (update p seen false).2) = true) : inSight p seen allowed = seen.take allowed := if_neg h

theorem shortOf_zero (p : StreamPath) (rest : Bytes) : ShortOf p rest 0 := by
  cases p with
  | plain => trivial
  | thinking hasTools => exact ⟨fun _ _ _ => Nat.zero_le _, fun _ _ _ _ => Nat.zero_le _⟩
  | text hasTools => exact fun _ _ _ _ => Nat.zero_le _
  | value style isString => exact fun _ _ _ => Nat.zero_le _

theorem ShortOf.add {p : StreamPath} {rest : Bytes} {j k : Nat} (hj : ShortOf p rest j) (hk : ShortOf p (rest.drop j) k) :
    ShortOf p rest (j + k) := by
  have hadd : ∀ {f : Bytes → Option (Bytes × Bytes)} {b r}, Finder f → f rest = some (b, r) → j ≤ b.length →
      (∀ b r, f (rest.drop j) = some (b, r) → k ≤ b.length) → j + k ≤ b.length := by
    intro f b r hf h hjb hall
    have hkb := hall _ _ (hf.drop h hjb)
    rw [List.length_drop] at hkb
    omega
  cases p with
  | plain => trivial
  | thinking hasTools =>
    exact ⟨fun b r h => hadd (finder_strstr _) h (hj.1 b r h) hk.1,
      fun htools b r h => hadd finder_tool h (hj.2 htools b r h) (hk.2 htools)⟩
  | text hasTools =>
    intro htools b r h
    have hjb := hj htools b r h
    have hprefix : trimmedLen b ≤ b.length := (List.rdropWhile_prefix isSpace b).length_le
    have hkb := hk htools _ _ (finder_tool.drop h (Nat.le_trans hjb hprefix))
    have hlen : (b.take j).length = j := by
      rw [List.length_take]
      omega
    have htrim := trimmed_append (x := b.take j) (y := b.drop j) (by rw [hlen, List.take_append_drop]; exact hjb)
    rw [List.take_append_drop] at htrim
    rw [trimmedLen, htrim, List.length_append, hlen]
    exact Nat.add_le_add_left hkb j
  | value style isString => exact fun v r h => hadd (finder_strstr _) h (hj v r h) hk

/-- Behind such a part an end is found at the same place. -/
theorem ShortOf.update_end {p : StreamPath} {rest : Bytes} {k : Nat} (h : ShortOf p rest k) (hk : k ≤ rest.length)
    (hall : searchesAll p = true) : (update p rest false).2 = (update p (rest.drop k) false).2 ∧
      ((update p (rest.drop k) false).2 = true → (update p rest false).1 = k + (update p (rest.drop k) false).1) := by
  have hlen : ∀ b : Bytes, (rest.take k ++ b).length = k + b.length := fun b => by
    rw [List.length_append, List.length_take, Nat.min_eq_left hk]
  cases p with
  | plain => cases hall
  | value style isString => cases hall
  | thinking hasTools =>
    have hfind := (finder_strstr thinkClose).unsent h.1
    have hfindTool : (if hasTools = true then findAnyToolStart rest else none) =
        (if hasTools = true then findAnyToolStart (rest.drop k) else none).map fun r => (rest.take k ++ r.1, r.2) := by
      split
      next htools => exact finder_tool.unsent (h.2 htools)
      next => rfl
    simp only [update]
    rw [hfind, hfindTool]
    cases strstr thinkClose (rest.drop k) with
    | some r => exact ⟨rfl, fun _ => hlen r.1⟩
    | none =>
      cases (if hasTools = true then findAnyToolStart (rest.drop k) else none) with
      | some r => exact ⟨rfl, fun _ => hlen r.1⟩
      | none => exact ⟨rfl, fun h => by cases h⟩
  | text hasTools =>
    cases hasTools with
    | false => exact ⟨rfl, fun h => by cases h⟩
    | true =>
      have hfind := finder_tool.unsent fun a y hr =>
        Nat.le_trans (h rfl a y hr) (List.rdropWhile_prefix isSpace a).length_le
      have hcut : ∀ {s a y}, findAnyToolStart s = some (a, y) → textStreamSafeLimit s true false = trimmedLen a := by
        intro s a y hs
        rw [textStreamSafeLimit, if_neg (by decide), hs]
        show utf8StreamSafeLen (a.take (trimmedLen a)) true = _
        rw [utf8StreamSafeLen, Bool.true_or, if_pos rfl, List.length_take]
        exact Nat.min_eq_left (List.rdropWhile_prefix isSpace a).length_le
      simp only [update, if_true, Bool.or_false]
      cases hrest : findAnyToolStart (rest.drop k) with
      | none =>
        rw [hrest] at hfind
        rw [hfind]
        exact ⟨rfl, fun h => by cases h⟩
      | some r =>
        rw [hrest] at hfind
        refine ⟨by rw [hfind]; rfl, fun _ => ?_⟩
        have htrim := trimmed_append (x := rest.take k) (y := r.1) (by
          rw [List.length_take, Nat.min_eq_left hk]
          exact h rfl _ _ hfind)
        rw [hcut hfind, hcut hrest, trimmedLen, htrim, hlen]
        rfl

/-! ## What is held -/

/-- No stop: what was withheld is sent, up to the end of the channel. -/
theorem heldDeltas_released (stops : StopList) (p : StreamPath) (pieces : List Bytes) (text : Bytes) (scan sent : Nat)
    (hsent : sent ≤ text.length) (hstop : stopAt stops pieces text scan = none) :
    Body p ((text ++ pieces.flatten).drop sent) (heldDeltas stops p pieces text scan sent).flatten := by
  induction pieces generalizing text scan sent with
  | nil =>
    rw [heldDeltas, List.flatten_nil, List.append_nil, List.flatten_singleton]
    exact final_body p _
  | cons piece pieces ih =>
    rw [stopAt] at hstop
    rw [heldDeltas]
    cases hfind : stopListFindFrom stops (text ++ piece) scan with
    | some pos =>
      rw [hfind] at hstop
      cases hstop
    | none =>
      rw [hfind] at hstop
      dsimp only at hstop ⊢
      rw [List.flatten_cons, ← List.append_assoc]
      generalize htext : text ++ piece = text' at hstop ⊢
      have hlen : sent ≤ text'.length := by
        rw [← htext, List.length_append]
        omega
      obtain ⟨k, hsight⟩ := inSight_take p (text'.drop sent) (allowedLen p stops text' - sent)
      rw [hsight]
      have hrest : (text' ++ pieces.flatten).drop sent = text'.drop sent ++ pieces.flatten :=
        List.drop_append_of_le_length hlen
      have hseg : (text'.drop sent).take k <+: (text' ++ pieces.flatten).drop sent := by
        rw [hrest]
        exact (List.take_prefix _ _).trans (List.prefix_append _ _)
      have hle : (update p ((text'.drop sent).take k) false).1 ≤ (text'.drop sent).length :=
        Nat.le_trans (update_le _ _ _) (by rw [List.length_take]; exact Nat.min_le_right _ _)
      have htake : ((text' ++ pieces.flatten).drop sent).take (update p ((text'.drop sent).take k) false).1 =
          (text'.drop sent).take (update p ((text'.drop sent).take k) false).1 := by
        rw [hrest, List.take_append_of_le_length hle]
      split
      next hend =>
        rw [List.flatten_singleton, ← htake]
        exact update_ends hseg (fun h => by cases h) hend
      next hon =>
        rw [Bool.not_eq_true] at hon
        rw [List.length_drop] at hle
        have hnext := ih text' (nextStopScan stops text'.length scan) (sent + (update p ((text'.drop sent).take k) false).1)
          (by omega) hstop
        rw [← List.drop_drop] at hnext
        rw [List.flatten_cons, ← htake]
        exact (update_short hseg hon).body hnext

/-- The deltas are the text from `sent` on, one behind the other. -/
theorem heldDeltas_contiguous (stops : StopList) (p : StreamPath) (pieces : List Bytes) (text : Bytes) (scan sent : Nat)
    (hsent : sent ≤ text.length) :
    (heldDeltas stops p pieces text scan sent).flatten <+: (text ++ pieces.flatten).drop sent := by
  induction pieces generalizing text scan sent with
  | nil =>
    rw [heldDeltas, List.flatten_nil, List.append_nil, List.flatten_singleton]
    exact List.take_prefix _ _
  | cons piece pieces ih =>
    rw [heldDeltas, List.flatten_cons, ← List.append_assoc]
    generalize htext : text ++ piece = text'
    have hlen : sent ≤ text'.length := by
      rw [← htext, List.length_append]
      omega
    have hrest : (text' ++ pieces.flatten).drop sent = text'.drop sent ++ pieces.flatten :=
      List.drop_append_of_le_length hlen
    -- a first delta and what goes on behind it
    have hjoin : ∀ (k : Nat) (x : Bytes), x <+: (text' ++ pieces.flatten).drop (sent + k) → k ≤ (text'.drop sent).length →
        (text'.drop sent).take k ++ x <+: (text' ++ pieces.flatten).drop sent := by
      rintro k x ⟨u, hu⟩ hk
      refine ⟨u, ?_⟩
      rw [List.append_assoc, hu, ← List.drop_drop, hrest, List.drop_append_of_le_length hk, ← List.append_assoc,
        List.take_append_drop]
    have hone : ∀ k, (text'.drop sent).take k <+: (text' ++ pieces.flatten).drop sent := fun k => by
      rw [hrest]
      exact (List.take_prefix _ _).trans (List.prefix_append _ _)
    have hbound : ∀ n final, (update p (inSight p (text'.drop sent) n) final).1 ≤ (text'.drop sent).length := fun n final => by
      obtain ⟨k, hk⟩ := inSight_take p (text'.drop sent) n
      refine Nat.le_trans (update_le _ _ _) ?_
      rw [hk, List.length_take]
      exact Nat.min_le_right _ _
    cases stopListFindFrom stops text' scan with
    | some pos =>
      dsimp only
      have hk := hbound (pos - sent) (isPlain p)
      generalize update p (inSight p (text'.drop sent) (pos - sent)) (isPlain p) = r at hk ⊢
      split
      · rw [List.flatten_singleton]
        exact hone _
      · rw [List.flatten_cons, List.flatten_singleton]
        refine hjoin _ _ ?_ hk
        rw [List.drop_take]
        refine (List.take_prefix _ _).trans ((List.take_prefix _ _).trans ?_)
        rw [List.length_drop] at hk
        rw [List.drop_append_of_le_length (by omega)]
        exact List.prefix_append _ _
    | none =>
      dsimp only
      have hk := hbound (allowedLen p stops text' - sent) false
      generalize update p (inSight p (text'.drop sent) (allowedLen p stops text' - sent)) false = r at hk ⊢
      split
      · rw [List.flatten_singleton]
        exact hone _
      · rw [List.flatten_cons]
        refine hjoin _ _ (ih _ _ _ ?_) hk
        rw [List.length_drop] at hk
        omega

theorem firstEnd_none {stops : StopList} {p : StreamPath} {start : Nat} {pieces : List Bytes} {text : Bytes} {scan : Nat}
    (h : searchesAll p = false) : firstEnd stops p start pieces text scan = none := by
  induction pieces generalizing text scan with
  | nil => rfl
  | cons piece pieces ih =>
    rw [firstEnd, h, Bool.false_and, if_neg Bool.false_ne_true]
    cases stopListFindFrom stops (text ++ piece) scan with
    | some pos => rfl
    | none => exact ih

theorem allowedLen_le (p : StreamPath) (stops : StopList) (text : Bytes) :
    allowedLen p stops text ≤ text.length - (stops.maxLen - 1) := by
  have hsafe := stopListStreamSafeLen_eq stops text.length
  rw [allowedLen]
  split
  · exact Nat.le_of_eq hsafe
  · refine Nat.le_trans (utf8StreamSafeLen_le _ _) ?_
    rw [List.length_take, hsafe]
    exact Nat.min_le_left _ _

/-- A stop: what is sent from `sent` on ends before it, unless an end behind it is found. -/
theorem heldDeltas_held {stops : StopList} {p : StreamPath} {start pos : Nat} (pieces : List Bytes) (text : Bytes)
    (scan sent : Nat) (hsearched : Searched stops text scan) (hstop : stopAt stops pieces text scan = some pos)
    (hstart : start ≤ sent) (hsent : sent ≤ text.length) (hheld : sent ≤ max start (text.length - (stops.maxLen - 1)))
    (hshort : ∀ u, ShortOf p ((text ++ u).drop start) (sent - start)) :
    sent + (heldDeltas stops p pieces text scan sent).flatten.length ≤ max start pos ↔
      ∀ e, firstEnd stops p start pieces text scan = some e → e ≤ max start pos := by
  -- on the pieces; while no end is found, what was sent stays in front of what is held
  induction pieces generalizing text scan sent with
  | nil => cases hstop
  | cons piece pieces ih =>
    have hhere := hshort piece
    have hpos := hsearched.stop hstop
    rw [stopAt] at hstop
    rw [heldDeltas, firstEnd]
    have hmore : ∀ u, text ++ piece ++ u = text ++ (piece ++ u) := fun u => List.append_assoc _ _ _
    have hmono : text.length ≤ (text ++ piece).length := by
      rw [List.length_append]
      omega
    have hlen : sent ≤ (text ++ piece).length := Nat.le_trans hsent hmono
    have hnext := @Searched.next stops text piece scan hsearched
    have hshortNext : ∀ u, ShortOf p ((text ++ piece ++ u).drop start) (sent - start) := fun u => by
      rw [hmore]
      exact hshort (piece ++ u)
    generalize text ++ piece = text' at hstop hhere hmono hlen hnext hshortNext ⊢
    have hdrop : ∀ s : Bytes, (s.drop start).drop (sent - start) = s.drop sent := fun s => by
      rw [List.drop_drop, Nat.add_sub_cancel' hstart]
    have hleft : (text'.drop sent).length = text'.length - sent := List.length_drop
    have htook : ∀ k ≤ (text'.drop sent).length, ((text'.drop sent).take k).length = k := fun k hk => by
      rw [List.length_take, Nat.min_eq_left hk]
    by_cases hend : (searchesAll p && (update p (text'.drop sent) false).2) = true
    · -- an end in sight: the channel is sent up to it, wherever the stop is
      obtain ⟨hall, hended⟩ := Bool.and_eq_true_iff.mp hend
      obtain ⟨hsame, hplace⟩ := hhere.update_end (by rw [List.length_drop]; omega) hall
      rw [hdrop] at hsame hplace
      have hplain : isPlain p = false := by
        cases p <;> first | rfl | cases hall
      have hfound : start + (update p (text'.drop start) false).1 = sent + (update p (text'.drop sent) false).1 := by
        rw [hplace hended]
        omega
      have hk := update_le p (text'.drop sent) false
      have hgoal : ∀ ds, ds = [(text'.drop sent).take (update p (text'.drop sent) false).1] →
          (sent + ds.flatten.length ≤ max start pos ↔
            ∀ e, some (start + (update p (text'.drop start) false).1) = some e → e ≤ max start pos) := by
        rintro ds rfl
        rw [List.flatten_singleton, htook _ hk, hfound]
        constructor
        · intro h e he
          cases he
          exact h
        · intro h
          exact h _ rfl
      have hsight : ∀ n, inSight p (text'.drop sent) n = text'.drop sent := fun n => if_pos hend
      dsimp only
      rw [hall, hsame, hended, Bool.true_and, if_pos rfl]
      apply hgoal
      cases stopListFindFrom stops text' scan with
      | some q =>
        dsimp only
        rw [hsight, hplain, if_pos hended]
      | none =>
        dsimp only
        rw [hsight, if_pos hended]
    · have hnoEnd : ¬(searchesAll p && (update p (text'.drop start) false).2) = true := by
        intro h
        obtain ⟨hall, hended⟩ := Bool.and_eq_true_iff.mp h
        obtain ⟨hsame, -⟩ := hhere.update_end (by rw [List.length_drop]; omega) hall
        rw [hdrop, hended] at hsame
        exact hend (by rw [hall, ← hsame]; rfl)
      dsimp only
      rw [if_neg hnoEnd]
      have hsight : ∀ n, inSight p (text'.drop sent) n = (text'.drop sent).take n := fun n => if_neg hend
      have hbound : ∀ n final, (update p ((text'.drop sent).take n) final).1 ≤ n ∧
          (update p ((text'.drop sent).take n) final).1 ≤ (text'.drop sent).length := fun n final => by
        have hle := update_le p ((text'.drop sent).take n) final
        rw [List.length_take] at hle
        omega
      cases hfind : stopListFindFrom stops text' scan with
      | some q =>
        rw [hfind] at hstop
        obtain rfl : q = pos := Option.some.inj hstop
        dsimp only
        rw [hsight]
        obtain ⟨hk, hk'⟩ := hbound (q - sent) (isPlain p)
        generalize update p ((text'.drop sent).take (q - sent)) (isPlain p) = r at hk hk' ⊢
        have hsafe : sent + (if r.2 = true then [(text'.drop sent).take r.1] else
            [(text'.drop sent).take r.1, ((text'.take q).drop (sent + r.1)).take
              (update p ((text'.take q).drop (sent + r.1)) true).1]).flatten.length ≤ max start q := by
          split
          · rw [List.flatten_singleton, htook _ hk']
            omega
          · rw [List.flatten_cons, List.flatten_singleton, List.length_append, htook _ hk', List.length_take,
              List.length_drop, List.length_take]
            omega
        exact iff_of_true hsafe (fun e he => by cases he)
      | none =>
        rw [hfind] at hstop
        dsimp only at hstop ⊢
        have hpos' := (hnext hfind).stop hstop
        have hallowed := allowedLen_le p stops text'
        rw [hsight]
        obtain ⟨hk, hk'⟩ := hbound (allowedLen p stops text' - sent) false
        cases hended : (update p ((text'.drop sent).take (allowedLen p stops text' - sent)) false).2 with
        | true =>
          rw [if_pos rfl]
          have hvalue : searchesAll p = false := by
            by_contra hall
            rw [Bool.not_eq_false] at hall
            have hseen := update_seen ((text'.drop sent).drop (allowedLen p stops text' - sent)) hended
            rw [List.take_append_drop] at hseen
            exact hend (by rw [hall, hseen]; rfl)
          refine iff_of_true ?_ (fun e he => ?_)
          · rw [List.flatten_singleton, htook _ hk']
            omega
          · rw [firstEnd_none hvalue] at he
            cases he
        | false =>
          rw [if_neg Bool.false_ne_true]
          have hgrow : ∀ u, ShortOf p ((text' ++ u).drop start)
              (sent + (update p ((text'.drop sent).take (allowedLen p stops text' - sent)) false).1 - start) := by
            intro u
            have hwindow : (text'.drop sent).take (allowedLen p stops text' - sent) <+:
                ((text' ++ u).drop start).drop (sent - start) := by
              rw [hdrop, List.drop_append_of_le_length hlen]
              exact (List.take_prefix _ _).trans (List.prefix_append _ _)
            have hadd := (hshortNext u).add (update_short hwindow hended)
            rwa [Nat.sub_add_comm hstart]
          have hrest := ih text' _ _ (hnext hfind) hstop (by omega) (by omega) (by omega) hgrow
          rw [List.flatten_cons, List.length_append, htook _ hk', ← Nat.add_assoc]
          exact hrest

/-- A stop string over the end of the reasoning, `o</think>!`. -/
def overlapping : StopList := ⟨[111 :: thinkClose ++ [33]], by simp⟩

theorem searched_nil (stops : StopList) : Searched stops [] 0 where
  absent s hs := by
    cases h : strstr s [] with
    | none => rfl
    | some x =>
      obtain ⟨b, r⟩ := x
      obtain ⟨hsplit, hstart⟩ := strstr_sound h
      obtain ⟨y, rfl⟩ := startsWith_iff.mp hstart
      have hnil := List.append_eq_nil_iff.mp (List.append_eq_nil_iff.mp hsplit.symm).2
      exact absurd hnil.1 (stops.nonempty s hs)
  early := Nat.zero_le _

end Ds4.Server
