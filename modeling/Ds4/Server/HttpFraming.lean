import Mathlib.Data.Nat.Find
import Ds4.Server.JsonValue

/- How `read_http_request` of ds4_server.c takes a request out of a stream of
   received chunks.

   Correspondence (C ↔ Lean):
     `header_end`                  ↔ `headerEnd`
     `content_length`, its `strtol` ↔ `contentLength`, `strtol`
     the `sscanf` of the first line ↔ `requestLine`, `scanRequestLine`
     `read_http_request`           ↔ `readHeader`, `readBody`, `readHttpRequest`
   A run is given by what `recv` returned, chunk by chunk; after the last one it
   fails. `content_length` looks for its line within the header, but `strtol`
   then reads on in the whole buffer, so it is given what lies behind the header
   too.

   PROVED: all ways of receiving a stream whose header fits give one result if
   and only if the stream is `Unambiguous` (`framing_stable_iff`). The buffer may
   hold up to 4095 bytes behind the first end of the header when that end is
   first seen (`Reach`), and two things depend on how many: which end is found,
   since an end in CRLF is preferred wherever it is, and what a blank
   Content-Length at the end of the header means. -/
namespace Ds4.Server
open Bytes

/-! ## The functions -/

def crlf2 : Bytes := [13, 10, 13, 10]

def lf2 : Bytes := [10, 10]

def headerEnd (b : Bytes) : Option Nat :=
  match strstr crlf2 b with
  | some (a, _) => some (a.length + 4)
  | none => (strstr lf2 b).map fun r => r.1.length + 2

/-- `strtol(s, NULL, 10)` with a 64-bit `long`. -/
def strtol (s : Bytes) : Int :=
  let t := skipWs s
  let digits := if t.head? = some 45 ∨ t.head? = some 43 then t.tail else t
  let n : Nat := (digits.takeWhile isDigit).foldl (fun n c => n * 10 + (c.toNat - 48)) 0
  if t.head? = some 45 then (if n ≤ 9223372036854775808 then -(n : Int) else -9223372036854775808)
  else if n ≤ 9223372036854775807 then (n : Int) else 9223372036854775807

def maxHeader : Nat := 64 * 1024

def maxBody : Nat := 64 * 1024 * 1024

/-- The first line of `h` without its line end, and whether it is a length. -/
def isLengthLine (h : Bytes) : Bool :=
  let line := h.takeWhile (· ≠ 10)
  let trimmed := if line.getLast? = some 13 then line.dropLast else line
  15 ≤ trimmed.length && (trimmed.take 15).map toLower == utf8 "content-length:"

def contentLength (h past : Bytes) : Int :=
  match h with
  | [] => 0
  | c :: r =>
    let line := (c :: r).takeWhile (· ≠ 10)
    let trimmed := if line.getLast? = some 13 then line.dropLast else line
    if isLengthLine (c :: r) then
      strtol ((c :: r).drop (15 + ((trimmed.drop 15).takeWhile isSpace).length) ++ past)
    else contentLength ((c :: r).drop (line.length + 1)) past
termination_by h.length
decreasing_by
  simp only [List.length_drop, List.length_cons]
  omega

/-- The C string `line`: what of the first line fits. -/
def requestLine (b : Bytes) : Bytes := (b.takeWhile (· ≠ 10)).take 511

/-- `sscanf(line, "%7s %255s", method, path)` and the cut at the query. -/
def scanRequestLine (line : Bytes) : Option (Bytes × Bytes) :=
  let s := skipWs (cstr line)
  let method := (s.takeWhile (!isSpace ·)).take 7
  let path := ((skipWs (s.drop method.length)).takeWhile (!isSpace ·)).take 255
  if method = [] ∨ path = [] then none else some (method, path.takeWhile (· ≠ 63))

/-- The buffer, the header's end in it and what is still to be received. -/
def readHeader (b : Bytes) (chunks : List Bytes) : Option (Bytes × Nat × List Bytes) :=
  if b.length < maxHeader then
    match chunks with
    | [] => none
    | c :: cs =>
      match headerEnd (b ++ c) with
      | some h => some (b ++ c, h, cs)
      | none => readHeader (b ++ c) cs
  else none

def readBody (need : Nat) (b : Bytes) (chunks : List Bytes) : Option Bytes :=
  if b.length < need then
    match chunks with
    | [] => none
    | c :: cs => readBody need (b ++ c) cs
  else some b

structure HttpRequest where
  method : Bytes
  path : Bytes
  body : Bytes
  deriving DecidableEq, Repr

def readHttpRequest (chunks : List Bytes) : Option HttpRequest := do
  let (b, hend, rest) ← readHeader [] chunks
  let (method, path) ← scanRequestLine (requestLine b)
  let clen := contentLength (b.take hend) (b.drop hend)
  if clen < 0 ∨ clen.toNat > maxBody then none
  let b ← readBody (hend + clen.toNat) b rest
  return { method, path, body := (b.drop hend).take clen.toNat }

/-- The sizes `recv` may return: its buffer has 4096 bytes until the header is
    complete and 8192 from then on. -/
def RecvSizes : Bytes → List Bytes → Prop
  | _, [] => True
  | b, c :: cs => 1 ≤ c.length ∧ c.length ≤ (if headerEnd b = none then 4096 else 8192) ∧ RecvSizes (b ++ c) cs

/-- `chunks` is a way of receiving the stream `s`. -/
def Receives (s : Bytes) (chunks : List Bytes) : Prop := chunks.flatten = s ∧ RecvSizes [] chunks

/-! ## Where a header ends -/

theorem strstr_upto {lit s a r : Bytes} (h : strstr lit s = some (a, r)) :
    (∃ r', s = a ++ lit ++ r') ∧ strstr lit (a ++ lit) = some (a, lit) := by
  obtain ⟨hs, hr⟩ := strstr_sound h
  obtain ⟨r', rfl⟩ := startsWith_iff.mp hr
  have hs' : s = a ++ lit ++ r' := by rw [hs, List.append_assoc]
  refine ⟨⟨r', hs'⟩, ?_⟩
  cases hcut : strstr lit (a ++ lit) with
  | none => exact absurd hcut ( strstr_of_infix ⟨a, [], by simp⟩)
  | some p =>
    obtain ⟨a', q⟩ := p
    obtain ⟨heq, hq⟩ := strstr_sound hcut
    obtain ⟨q', rfl⟩ := startsWith_iff.mp hq
    have hlen := congrArg List.length heq
    simp only [List.length_append] at hlen
    have hge : ¬a'.length < a.length := by
      intro hlt
      have hno := (strstr_index h).2 a'.length hlt
      have hyes : startsWith lit (s.drop a'.length) = true := by
        rw [hs', heq, List.append_assoc, List.drop_left, List.append_assoc]
        exact startsWith_append _ _
      rw [hyes] at hno
      cases hno
    obtain ⟨rfl, hlit⟩ := List.append_inj heq (by omega)
    rw [← hlit]

theorem strstr_none_take {lit s : Bytes} (h : strstr lit s = none) (n : Nat) : strstr lit (s.take n) = none := by
  by_contra hne
  cases hs : strstr lit (s.take n) with
  | none => exact hne hs
  | some p =>
    obtain ⟨a, r⟩ := p
    obtain ⟨⟨r', hr'⟩, -⟩ := strstr_upto hs
    refine strstr_of_infix ⟨a, r' ++ s.drop n, ?_⟩ h
    rw [← List.append_assoc, ← hr', List.take_append_drop]

theorem headerEnd_none {b : Bytes} : headerEnd b = none ↔ strstr crlf2 b = none ∧ strstr lf2 b = none := by
  rw [headerEnd]
  cases strstr crlf2 b with
  | none => simp
  | some p => simp

/-- A header that is complete stays complete, and what is behind its end does
    not count. -/
theorem headerEnd_take {b : Bytes} {h : Nat} (hb : headerEnd b = some h) :
    h ≤ b.length ∧ headerEnd (b.take h) = some h ∧ (b.take h).getLast? = some 10 := by
  rw [headerEnd] at hb
  cases hc : strstr crlf2 b with
  | some p =>
    obtain ⟨a, r⟩ := p
    obtain ⟨⟨r', hr'⟩, hcut⟩ := strstr_upto hc
    simp only [hc, Option.some.injEq] at hb
    have hlen : h = (a ++ crlf2).length := by simp [crlf2, ← hb]
    have htake : b.take h = a ++ crlf2 := by
      rw [hr', hlen]
      exact List.take_left
    refine ⟨?_, ?_, ?_⟩
    · rw [hr', hlen]
      exact (List.prefix_append _ r').length_le
    · rw [htake, headerEnd, hcut, ← hb]
    · rw [htake]
      simp [crlf2]
  | none =>
    simp only [hc, Option.map_eq_some_iff] at hb
    obtain ⟨⟨a, r⟩, hl, hb⟩ := hb
    obtain ⟨⟨r', hr'⟩, hcut⟩ := strstr_upto hl
    have hlen : h = (a ++ lf2).length := by simp [lf2, ← hb]
    have htake : b.take h = a ++ lf2 := by
      rw [hr', hlen]
      exact List.take_left
    refine ⟨?_, ?_, ?_⟩
    · rw [hr', hlen]
      exact (List.prefix_append _ r').length_le
    · rw [headerEnd, strstr_none_take hc, htake, hcut, ← hb]
      rfl
    · rw [htake]
      simp [lf2]

theorem headerEnd_none_take {b : Bytes} (h : headerEnd b = none) (n : Nat) : headerEnd (b.take n) = none := by
  rw [headerEnd_none] at h ⊢
  exact ⟨strstr_none_take h.1 n, strstr_none_take h.2 n⟩

theorem headerEnd_mono {s : Bytes} {n k : Nat} (hn : headerEnd (s.take n) ≠ none) (hk : n ≤ k) :
    headerEnd (s.take k) ≠ none := by
  intro h
  have := headerEnd_none_take h n
  rw [List.take_take, Nat.min_eq_left hk] at this
  exact hn this

theorem requestLine_take {s : Bytes} {n : Nat} (h : headerEnd (s.take n) ≠ none) :
    requestLine (s.take n) = requestLine s := by
  obtain ⟨e, he⟩ := Option.ne_none_iff_exists'.mp h
  have hlast := (headerEnd_take he).2.2
  have hmem : (10 : UInt8) ∈ s.take n := List.mem_of_mem_take (List.mem_of_getLast? hlast)
  rw [requestLine, requestLine]
  congr 1
  conv_rhs => rw [← List.take_append_drop n s]
  rw [List.takeWhile_append, if_neg]
  intro hlen
  have hall := List.takeWhile_eq_self_iff.mp ((List.takeWhile_prefix _).eq_of_length hlen)
  simpa using hall 10 hmem

/-! ## What a length is -/

/-- What `strtol` of `content_length` is given of the header: the text behind
    the name of its first Content-Length line, to the end of the header. -/
def lengthText (h : Bytes) : Option Bytes :=
  match h with
  | [] => none
  | c :: r =>
    if isLengthLine (c :: r) then some ((c :: r).drop 15)
    else lengthText ((c :: r).drop (((c :: r).takeWhile (· ≠ 10)).length + 1))
termination_by h.length
decreasing_by
  simp only [List.length_drop, List.length_cons]
  omega

theorem strtol_blank {w : Bytes} (hw : ∀ c ∈ w, isSpace c = true) (past : Bytes) : strtol (w ++ past) = strtol past := by
  rw [strtol, skipWs_append hw, strtol]

theorem strtol_nil : strtol [] = 0 := by decide

/-- A number within the header ends within it. -/
theorem strtol_line {x : Bytes} (hlast : x.getLast? = some 10) (hx : ¬∀ c ∈ x, isSpace c = true) (past : Bytes) :
    strtol (x ++ past) = strtol x := by
  obtain ⟨w, hsplit, hw⟩ := skipWs_split x
  cases ht : skipWs x with
  | nil =>
    rw [ht, List.append_nil] at hsplit
    exact absurd (hsplit ▸ hw) hx
  | cons c y =>
    have hc := skipWs_head x ht
    have hskip : skipWs (x ++ past) = c :: y ++ past := by
      rw [hsplit, List.append_assoc, skipWs_append hw, ht, List.cons_append, skipWs_cons hc]
    have hy : y.getLast? = some 10 := by
      rw [hsplit, ht, List.getLast?_append_cons] at hlast
      cases y with
      | nil =>
        cases hlast
        cases hc
      | cons d y => rwa [List.getLast?_cons_cons] at hlast
    have hstop : ∀ z : Bytes, z.getLast? = some 10 → (z ++ past).takeWhile isDigit = z.takeWhile isDigit := by
      intro z hz
      rw [List.takeWhile_append, if_neg]
      intro hlen
      have hall := List.takeWhile_eq_self_iff.mp ((List.takeWhile_prefix _).eq_of_length hlen)
      exact absurd (hall 10 (List.mem_of_getLast? hz)) (by decide)
    have hcy : (c :: y).getLast? = some 10 := by
      cases y with
      | nil => cases hy
      | cons d y => rwa [List.getLast?_cons_cons]
    simp only [strtol, hskip, ht, List.cons_append, List.head?_cons, List.tail_cons]
    have hdigits : (if some c = some 45 ∨ some c = some 43 then y ++ past else c :: (y ++ past)).takeWhile isDigit =
        (if some c = some 45 ∨ some c = some 43 then y else c :: y).takeWhile isDigit := by
      split
      · exact hstop y hy
      · exact hstop (c :: y) hcy
    rw [hdigits]

theorem contentLength_eq (past : Bytes) : ∀ h : Bytes, contentLength h past =
    match lengthText h with
    | none => 0
    | some t => strtol (t ++ past) := by
  intro h
  induction h using lengthText.induct with
  | case1 => rw [contentLength, lengthText]
  | case2 c r hline =>
    rw [contentLength, lengthText, if_pos hline, if_pos hline]
    have hpre : (if ((c :: r).takeWhile (· ≠ 10)).getLast? = some 13 then ((c :: r).takeWhile (· ≠ 10)).dropLast
        else (c :: r).takeWhile (· ≠ 10)) <+: c :: r := by
      split
      · exact (List.dropLast_prefix _).trans (List.takeWhile_prefix _)
      · exact List.takeWhile_prefix _
    generalize (if ((c :: r).takeWhile (· ≠ 10)).getLast? = some 13 then ((c :: r).takeWhile (· ≠ 10)).dropLast
        else (c :: r).takeWhile (· ≠ 10)) = trimmed at hpre ⊢
    obtain ⟨z, hz⟩ := (List.takeWhile_prefix isSpace (l := trimmed.drop 15)).trans (hpre.drop 15)
    show strtol _ = strtol _
    rw [← List.drop_drop, ← hz, List.drop_left, List.append_assoc,
      strtol_blank fun b hb => List.mem_takeWhile_imp hb]
  | case3 c r hline ih =>
    rw [contentLength, lengthText, if_neg hline, if_neg hline]
    exact ih

theorem lengthText_suffix : ∀ {h t : Bytes}, lengthText h = some t → t <:+ h := by
  intro h
  induction h using lengthText.induct with
  | case1 =>
    intro t ht
    rw [lengthText] at ht
    cases ht
  | case2 c r hline =>
    intro t ht
    rw [lengthText, if_pos hline] at ht
    cases ht
    exact List.drop_suffix _ _
  | case3 c r hline ih =>
    intro t ht
    rw [lengthText, if_neg hline] at ht
    exact (ih ht).trans (List.drop_suffix _ _)

/-- The header's Content-Length is blank up to the end of the header. -/
def OpenLength (h : Bytes) : Prop := ∃ t, lengthText h = some t ∧ ∀ c ∈ t, isSpace c = true

theorem contentLength_open {h : Bytes} (ho : OpenLength h) (past : Bytes) : contentLength h past = strtol past := by
  obtain ⟨t, ht, hspace⟩ := ho
  rw [contentLength_eq, ht]
  exact strtol_blank hspace past

theorem contentLength_closed {h : Bytes} (hlast : h.getLast? = some 10) (ho : ¬OpenLength h) (past : Bytes) :
    contentLength h past = contentLength h [] := by
  rw [contentLength_eq, contentLength_eq]
  cases ht : lengthText h with
  | none => rfl
  | some t =>
    have hnot : ¬∀ c ∈ t, isSpace c = true := fun hs => ho ⟨t, ht, hs⟩
    obtain ⟨p, hp⟩ := lengthText_suffix ht
    have htlast : t.getLast? = some 10 := by
      cases t with
      | nil => exact absurd (fun _ h => by cases h) hnot
      | cons c t => rwa [← hp, List.getLast?_append_cons] at hlast
    show strtol _ = strtol _
    rw [strtol_line htlast hnot, List.append_nil]

/-! ## A request by the place where its header was seen -/

/-- How many bytes may be in the buffer when the header is first seen complete:
    its first end, and what came in the same chunk. -/
def Reach (s : Bytes) (n : Nat) : Prop :=
  ∃ e, headerEnd (s.take e) ≠ none ∧ (∀ k < e, headerEnd (s.take k) = none) ∧ e ≤ n ∧ n ≤ e + 4095 ∧ n ≤ s.length

/-- The body of `clen` bytes behind a header that ends at `h`. -/
def bodyAt (s : Bytes) (h : Nat) (clen : Int) : Option Bytes :=
  if clen < 0 ∨ clen.toNat > maxBody ∨ s.length < h + clen.toNat then none else some ((s.drop h).take clen.toNat)

/-- The stream names one request however much of it is in the buffer when its
    header is first seen complete. -/
def Unambiguous (s : Bytes) : Prop :=
  scanRequestLine (requestLine s) = none ∨
  (∀ n h, Reach s n → headerEnd (s.take n) = some h → OpenLength (s.take h) → strtol ((s.take n).drop h) = 0) ∧
  ∀ n h n' h', Reach s n → headerEnd (s.take n) = some h → Reach s n' → headerEnd (s.take n') = some h' →
    bodyAt s h (contentLength (s.take h) []) = bodyAt s h' (contentLength (s.take h') [])

/-- The request of `s` when its header is first seen complete in `n` bytes. -/
def framed (s : Bytes) (n : Nat) : Option HttpRequest := do
  let hend ← headerEnd (s.take n)
  let (method, path) ← scanRequestLine (requestLine s)
  let body ← bodyAt s hend (contentLength (s.take hend) ((s.take n).drop hend))
  return { method, path, body }

theorem readBody_eq (need : Nat) : ∀ (chunks : List Bytes) (b : Bytes),
    if b.length + chunks.flatten.length < need then readBody need b chunks = none
    else ∃ b', readBody need b chunks = some b' ∧ need ≤ b'.length ∧ b' <+: b ++ chunks.flatten
  | [], b => by
    rw [List.flatten_nil, List.length_nil, Nat.add_zero, List.append_nil, readBody]
    split
    · rfl
    · exact ⟨b, rfl, by omega, List.prefix_rfl⟩
  | c :: cs, b => by
    have ih := readBody_eq need cs (b ++ c)
    have hlen : (b ++ c).length + cs.flatten.length = b.length + (c :: cs).flatten.length := by
      simp [Nat.add_assoc]
    rw [hlen, List.append_assoc, ← List.flatten_cons] at ih
    rw [readBody]
    by_cases hb : b.length < need
    · rw [if_pos hb]
      exact ih
    · rw [if_neg (by omega), if_neg hb]
      exact ⟨b, rfl, by omega, List.prefix_append _ _⟩

/-- What happens once the header has been seen depends on nothing but where. -/
theorem read_framed {s : Bytes} {n h : Nat} {q : List Bytes} (hh : headerEnd (s.take n) = some h)
    (hrest : s.take n ++ q.flatten = s) {chunks : List Bytes}
    (hread : readHeader [] chunks = some (s.take n, h, q)) : readHttpRequest chunks = framed s n := by
  obtain ⟨hle, hself, -⟩ := headerEnd_take hh
  have hhead : (s.take n).take h = s.take h := by
    rw [List.take_take, Nat.min_eq_left (by rw [List.length_take] at hle; omega)]
  have hbody := fun need => readBody_eq need q (s.take n)
  have hlen : (s.take n).length + q.flatten.length = s.length := by
    rw [← List.length_append, hrest]
  simp only [hlen, hrest] at hbody
  simp only [readHttpRequest, hread, framed, hh, Option.bind_eq_bind, Option.bind_some, hhead,
    requestLine_take (by rw [hh]; exact Option.some_ne_none h)]
  cases hscan : scanRequestLine (requestLine s) with
  | none => rfl
  | some mp =>
    obtain ⟨method, path⟩ := mp
    simp only [Option.bind_some]
    generalize contentLength (s.take h) ((s.take n).drop h) = clen
    rw [bodyAt]
    by_cases hbad : clen < 0 ∨ clen.toNat > maxBody
    · rw [if_pos hbad, if_pos (by tauto)]
      rfl
    rw [if_neg hbad]
    have hb := hbody (h + clen.toNat)
    by_cases hshort : s.length < h + clen.toNat
    · rw [if_pos hshort] at hb
      rw [hb, if_pos (by tauto)]
      rfl
    · rw [if_neg hshort] at hb
      obtain ⟨b', hb', hneed, r, hr⟩ := hb
      rw [hb', if_neg (by tauto)]
      have htake : (s.drop h).take clen.toNat = (b'.drop h).take clen.toNat := by
        rw [← hr, List.drop_append_of_le_length (by omega),
          List.take_append_of_le_length (by rw [List.length_drop]; omega)]
      simp [htake]

/-- However a stream is received, its header is seen complete within reach. -/
theorem readHeader_reach {s : Bytes} {e : Nat} (he : headerEnd (s.take e) ≠ none)
    (hfirst : ∀ k < e, headerEnd (s.take k) = none) (hmax : e ≤ maxHeader) :
    ∀ (chunks : List Bytes) (b : Bytes), b ++ chunks.flatten = s → headerEnd b = none → RecvSizes b chunks →
      ∃ n h rest, Reach s n ∧ headerEnd (s.take n) = some h ∧ s.take n ++ rest.flatten = s ∧
        readHeader b chunks = some (s.take n, h, rest)
  | [], b, hs, hb, _ => by
    rw [List.flatten_nil, List.append_nil] at hs
    subst hs
    exact absurd (headerEnd_none_take hb e) he
  | c :: cs, b, hs, hb, hsizes => by
    have hbe : b.length < e := by
      by_contra hge
      have htake : s.take b.length = b := by rw [← hs, List.take_left]
      exact headerEnd_mono he (by omega) (htake ▸ hb)
    have hbc : s.take (b ++ c).length = b ++ c := by
      rw [← hs, List.flatten_cons, ← List.append_assoc, List.take_left]
    have hrest : b ++ c ++ cs.flatten = s := by rw [← hs, List.flatten_cons, List.append_assoc]
    rw [readHeader, if_pos (by omega)]
    obtain ⟨hc1, hc, hsizes⟩ := hsizes
    rw [if_pos hb] at hc
    cases hh : headerEnd (b ++ c) with
    | none =>
      exact readHeader_reach he hfirst hmax cs (b ++ c) hrest hh hsizes
    | some h =>
      have hn : headerEnd (s.take (b ++ c).length) ≠ none := by
        rw [hbc, hh]
        exact Option.some_ne_none h
      refine ⟨(b ++ c).length, h, cs, ⟨e, he, hfirst, ?_, ?_, ?_⟩, by rw [hbc, hh], by rw [hbc, hrest], by rw [hbc]⟩
      · by_contra hlt
        exact hn (hfirst _ (by omega))
      · rw [List.length_append]
        omega
      · rw [← hrest]
        exact (List.prefix_append _ _).length_le

/-- The header's first end is among the first `maxHeader` bytes. -/
def HeaderComplete (s : Bytes) : Prop := ∃ n ≤ maxHeader, headerEnd (s.take n) ≠ none

theorem HeaderComplete.first {s : Bytes} (h : HeaderComplete s) :
    ∃ e ≤ maxHeader, headerEnd (s.take e) ≠ none ∧ ∀ k < e, headerEnd (s.take k) = none := by
  classical
  obtain ⟨n, hn, hs⟩ := h
  have hex : ∃ n, headerEnd (s.take n) ≠ none := ⟨n, hs⟩
  refine ⟨Nat.find hex, (Nat.find_min' hex hs).trans hn, Nat.find_spec hex, fun k hk => ?_⟩
  exact not_not.mp (Nat.find_min hex hk)

theorem read_reach {s : Bytes} (hs : HeaderComplete s) {chunks : List Bytes} (hc : Receives s chunks) :
    ∃ n, Reach s n ∧ readHttpRequest chunks = framed s n := by
  obtain ⟨e, hmax, he, hfirst⟩ := hs.first
  obtain ⟨n, h, rest, hreach, hh, hrest, hread⟩ := readHeader_reach he hfirst hmax chunks [] hc.1 rfl hc.2
  exact ⟨n, hreach, read_framed hh hrest hread⟩

/-- Bytes received one at a time before the header is complete. -/
theorem readHeader_bytes {cs : List Bytes} : ∀ (x b : Bytes), headerEnd (b ++ x) = none → (b ++ x).length < maxHeader →
    readHeader b (x.map (fun c => [c]) ++ cs) = readHeader (b ++ x) cs
  | [], b, _, _ => by rw [List.map_nil, List.nil_append, List.append_nil]
  | c :: x, b, hb, hmax => by
    have hsplit : b ++ c :: x = b ++ [c] ++ x := by rw [List.append_assoc, List.singleton_append]
    rw [hsplit] at hb hmax ⊢
    have hnone : headerEnd (b ++ [c]) = none := by
      have := headerEnd_none_take hb (b ++ [c]).length
      rwa [List.take_left] at this
    have hlen : (b ++ [c] ++ x).length = b.length + 1 + x.length := by
      simp
      omega
    rw [List.map_cons, List.cons_append, readHeader, if_pos (by omega)]
    simp only [hnone]
    exact readHeader_bytes x (b ++ [c]) hb hmax

theorem recvSizes_bytes {k : List Bytes} : ∀ (x b : Bytes), RecvSizes (b ++ x) k →
    RecvSizes b (x.map (fun c => [c]) ++ k)
  | [], b, h => by rwa [List.append_nil] at h
  | c :: x, b, h => by
    refine ⟨Nat.le_refl 1, ?_, recvSizes_bytes x (b ++ [c]) (by simpa using h)⟩
    split <;> simp

theorem flatten_bytes (x : Bytes) : (x.map fun c => [c]).flatten = x := by
  induction x with
  | nil => rfl
  | cons c x ih => rw [List.map_cons, List.flatten_cons, ih, List.singleton_append]

/-- Every place in reach is where some way of receiving the stream first sees its header complete. -/
theorem reach_read {s : Bytes} (hs : HeaderComplete s) {n : Nat} (hn : Reach s n) :
    ∃ chunks, Receives s chunks ∧ readHttpRequest chunks = framed s n := by
  obtain ⟨e, he, hfirst, hen, hne, hlen⟩ := hn
  have hmax : e ≤ maxHeader := by
    obtain ⟨e', hmax, he', hfirst'⟩ := hs.first
    by_contra hlt
    exact he' (hfirst e' (by omega))
  have hpos : 0 < e := by
    by_contra hzero
    obtain rfl : e = 0 := by omega
    exact he rfl
  have hbefore := hfirst (e - 1) (by omega)
  obtain ⟨x, y, z, hs', hx, hxy⟩ : ∃ x y z, s = x ++ y ++ z ∧ x.length = e - 1 ∧ (x ++ y).length = n := by
    refine ⟨s.take (e - 1), (s.take n).drop (e - 1), s.drop n, ?_, by simp; omega, by simp; omega⟩
    have hpre : s.take (e - 1) = (s.take n).take (e - 1) := by rw [List.take_take, Nat.min_eq_left (by omega)]
    rw [hpre, List.take_append_drop, List.take_append_drop]
  have htake : s.take n = x ++ y := by rw [hs', ← hxy, List.take_left]
  have htakex : s.take (e - 1) = x := by rw [hs', ← hx, List.append_assoc, List.take_left]
  have hy : y.length = n - (e - 1) := by
    rw [List.length_append] at hxy
    omega
  obtain ⟨h, hh⟩ := Option.ne_none_iff_exists'.mp (headerEnd_mono he hen)
  rw [htakex] at hbefore
  refine ⟨x.map (fun c => [c]) ++ y :: z.map fun c => [c], ⟨?_, ?_⟩, ?_⟩
  · rw [List.flatten_append, List.flatten_cons, flatten_bytes, flatten_bytes, hs', List.append_assoc]
  · apply recvSizes_bytes x []
    refine ⟨by omega, ?_, ?_⟩
    · rw [List.nil_append, if_pos hbefore]
      omega
    · have hz := recvSizes_bytes (k := []) z (x ++ y) trivial
      rwa [List.append_nil] at hz
  · apply read_framed hh (q := z.map fun c => [c])
    · rw [flatten_bytes, htake, hs']
    · rw [readHeader_bytes x [] hbefore (by rw [List.nil_append]; omega), List.nil_append, readHeader,
        if_pos (by omega), ← htake, hh]

theorem strtol_framed {s : Bytes} {n h : Nat} (hh : headerEnd (s.take n) = some h)
    (hzero : OpenLength (s.take h) → strtol ((s.take n).drop h) = 0) :
    contentLength (s.take h) ((s.take n).drop h) = contentLength (s.take h) [] := by
  obtain ⟨hle, -, hlast⟩ := headerEnd_take hh
  rw [List.take_take, Nat.min_eq_left (by rw [List.length_take] at hle; omega)] at hlast
  by_cases ho : OpenLength (s.take h)
  · rw [contentLength_open ho, contentLength_open ho, hzero ho, strtol_nil]
  · exact contentLength_closed hlast ho _

/-- The end found in a buffer within reach is itself within reach, with nothing behind it. -/
theorem reach_end {s : Bytes} {n h : Nat} (hn : Reach s n) (hh : headerEnd (s.take n) = some h) :
    Reach s h ∧ headerEnd (s.take h) = some h := by
  obtain ⟨hle, hself, -⟩ := headerEnd_take hh
  rw [List.length_take] at hle
  rw [List.take_take, Nat.min_eq_left (by omega)] at hself
  obtain ⟨e, he, hfirst, hen, hne, hlen⟩ := hn
  refine ⟨⟨e, he, hfirst, ?_, by omega, by omega⟩, hself⟩
  by_contra hlt
  rw [hfirst h (by omega)] at hself
  cases hself

theorem bodyAt_zero (s : Bytes) {h : Nat} (hle : h ≤ s.length) : bodyAt s h 0 = some [] := by
  rw [bodyAt, if_neg]
  · rfl
  · rintro (h | h | h)
    · exact absurd h (by decide)
    · exact absurd h (by decide)
    · rw [Int.toNat_zero] at h
      omega

theorem bodyAt_nonzero {s : Bytes} {h : Nat} {clen : Int} (hc : clen ≠ 0) : bodyAt s h clen ≠ some [] := by
  rw [bodyAt]
  split
  · exact fun h => by cases h
  · intro hnil
    rw [Option.some.injEq] at hnil
    have hlen := congrArg List.length hnil
    rw [List.length_take, List.length_drop, List.length_nil] at hlen
    omega

theorem framed_stable {s : Bytes} :
    (∀ n n', Reach s n → Reach s n' → framed s n = framed s n') ↔ Unambiguous s := by
  cases hscan : scanRequestLine (requestLine s) with
  | none =>
    refine iff_of_true (fun n n' _ _ => ?_) (Or.inl hscan)
    have hnone : ∀ n, framed s n = none := by
      intro n
      cases hh : headerEnd (s.take n) <;> simp [framed, hh, hscan]
    rw [hnone, hnone]
  | some mp =>
    obtain ⟨method, path⟩ := mp
    have hframed : ∀ n h, headerEnd (s.take n) = some h → framed s n =
        (bodyAt s h (contentLength (s.take h) ((s.take n).drop h))).map fun body => ⟨method, path, body⟩ := by
      intro n h hh
      simp only [framed, hh, hscan, Option.bind_eq_bind, Option.bind_some]
      cases bodyAt s h (contentLength (s.take h) ((s.take n).drop h)) <;> rfl
    have hinj : Function.Injective (Option.map fun body => (⟨method, path, body⟩ : HttpRequest)) :=
      Option.map_injective fun a b hab => congrArg HttpRequest.body hab
    constructor
    · intro hall
      right
      have hzero : ∀ n h, Reach s n → headerEnd (s.take n) = some h → OpenLength (s.take h) →
          strtol ((s.take n).drop h) = 0 := by
        intro n h hn hh ho
        obtain ⟨hreach, hself⟩ := reach_end hn hh
        obtain ⟨_, _, _, _, _, hlen⟩ := id hreach
        have heq := hall n h hn hreach
        rw [hframed n h hh, hframed h h hself, contentLength_open ho, contentLength_open ho,
          List.drop_take_self, strtol_nil, bodyAt_zero s hlen] at heq
        by_contra hne
        exact bodyAt_nonzero hne (hinj heq)
      refine ⟨hzero, fun n h n' h' hn hh hn' hh' => ?_⟩
      have heq := hall n n' hn hn'
      rw [hframed n h hh, hframed n' h' hh', strtol_framed hh (hzero n h hn hh),
        strtol_framed hh' (hzero n' h' hn' hh')] at heq
      exact hinj heq
    · rintro (hnone | ⟨hzero, hsame⟩) n n' hn hn'
      · rw [hscan] at hnone
        cases hnone
      · obtain ⟨e, he, _, hen, _, _⟩ := id hn
        obtain ⟨e', he', _, hen', _, _⟩ := id hn'
        obtain ⟨h, hh⟩ := Option.ne_none_iff_exists'.mp (headerEnd_mono he hen)
        obtain ⟨h', hh'⟩ := Option.ne_none_iff_exists'.mp (headerEnd_mono he' hen')
        rw [hframed n h hh, hframed n' h' hh', strtol_framed hh (hzero n h hn hh),
          strtol_framed hh' (hzero n' h' hn' hh'), hsame n h n' h' hn hh hn' hh']

theorem framing_stable_iff (s : Bytes) (hs : HeaderComplete s) :
    (∀ chunks chunks', Receives s chunks → Receives s chunks' → readHttpRequest chunks = readHttpRequest chunks') ↔
      Unambiguous s := by
  rw [← framed_stable]
  constructor
  · intro hall n n' hn hn'
    obtain ⟨chunks, hc, hread⟩ := reach_read hs hn
    obtain ⟨chunks', hc', hread'⟩ := reach_read hs hn'
    rw [← hread, ← hread', hall chunks chunks' hc hc']
  · intro hall chunks chunks' hc hc'
    obtain ⟨n, hn, hread⟩ := read_reach hs hc
    obtain ⟨n', hn', hread'⟩ := read_reach hs hc'
    rw [hread, hread', hall n n' hn hn']

theorem framing_stable_sample :
    (∀ chunks chunks', Receives (utf8 "GET / HTTP/1.1\r\n\r\n") chunks → Receives (utf8 "GET / HTTP/1.1\r\n\r\n") chunks' →
      readHttpRequest chunks = readHttpRequest chunks') ↔ Unambiguous (utf8 "GET / HTTP/1.1\r\n\r\n") :=
  framing_stable_iff (utf8 "GET / HTTP/1.1\r\n\r\n") ⟨18, by decide, by decide⟩

/-- A header with bare line ends and a body that starts with an empty line in CRLF. -/
def bareStream : Bytes := utf8 "POST / HTTP/1.1\nContent-Length: 6\n\n\r\n\r\n{}"

theorem lengthText_bare (r : Bytes) :
    lengthText (utf8 "POST / HTTP/1.1\nContent-Length: 6\n\n" ++ r) = some (utf8 " 6\n\n" ++ r) := by
  have hline : (utf8 "POST / HTTP/1.1\nContent-Length: 6\n\n" ++ r).takeWhile (· ≠ 10) = utf8 "POST / HTTP/1.1" := rfl
  have hlength : (utf8 "Content-Length: 6\n\n" ++ r).takeWhile (· ≠ 10) = utf8 "Content-Length: 6" := rfl
  have hno : isLengthLine (utf8 "POST / HTTP/1.1\nContent-Length: 6\n\n" ++ r) = false := by
    rw [isLengthLine, hline]
    decide
  have hyes : isLengthLine (utf8 "Content-Length: 6\n\n" ++ r) = true := by
    rw [isLengthLine, hlength]
    decide
  change lengthText (80 :: (utf8 "OST / HTTP/1.1\nContent-Length: 6\n\n" ++ r)) = _
  rw [lengthText, if_neg (by rw [Bool.not_eq_true]; exact hno)]
  change lengthText (67 :: (utf8 "ontent-Length: 6\n\n" ++ r)) = _
  rw [lengthText, if_pos (by exact hyes)]
  rfl

/-- Received in two chunks the body of `bareStream` starts with that empty line; received
    whole it starts behind it, and is too short. -/
theorem framing_unstable :
    HeaderComplete bareStream ∧ Receives bareStream [bareStream.take 35, bareStream.drop 35] ∧
      Receives bareStream [bareStream] ∧
      readHttpRequest [bareStream.take 35, bareStream.drop 35] =
        some ⟨utf8 "POST", utf8 "/", utf8 "\r\n\r\n{}"⟩ ∧
      readHttpRequest [bareStream] = none := by
  have hclen : ∀ r past, contentLength (utf8 "POST / HTTP/1.1\nContent-Length: 6\n\n" ++ r) past =
      strtol (utf8 " 6\n\n" ++ r ++ past) := fun r past => by rw [contentLength_eq, lengthText_bare]
  have hscan : scanRequestLine (requestLine bareStream) = some (utf8 "POST", utf8 "/") := by decide
  have hsplit : readHttpRequest [bareStream.take 35, bareStream.drop 35] = framed bareStream 35 :=
    read_framed (n := 35) (h := 35) (q := [bareStream.drop 35]) (by decide) (by decide) (by decide)
  have hwhole : readHttpRequest [bareStream] = framed bareStream 41 :=
    read_framed (n := 41) (h := 39) (q := []) (by decide) (by decide) (by decide)
  refine ⟨⟨35, by decide, by decide⟩, ⟨by decide, ?_⟩, ⟨by decide, ?_⟩, ?_, ?_⟩
  · exact ⟨by decide, by decide, by decide, by decide, trivial⟩
  · exact ⟨by decide, by decide, trivial⟩
  · have hend : headerEnd (bareStream.take 35) = some 35 := by decide
    have hc := hclen [] []
    rw [List.append_nil] at hc
    have hnum : contentLength (bareStream.take 35) ((bareStream.take 35).drop 35) = 6 := by
      refine Eq.trans hc ?_
      decide
    rw [hsplit]
    simp only [framed, hend, hscan, hnum, Option.bind_eq_bind, Option.bind_some]
    decide
  · have hend : headerEnd (bareStream.take 41) = some 39 := by decide
    have hnum : contentLength (bareStream.take 39) ((bareStream.take 41).drop 39) = 6 := by
      refine Eq.trans (hclen (utf8 "\r\n\r\n") (utf8 "{}")) ?_
      decide
    rw [hwhole]
    simp only [framed, hend, hscan, hnum, Option.bind_eq_bind, Option.bind_some]
    decide

end Ds4.Server
