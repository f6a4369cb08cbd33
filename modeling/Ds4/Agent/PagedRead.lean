import Ds4.Bytes

/- Reading a file page by page: the `read` and `more` tools of ds4_agent.c.

   Correspondence (C ↔ Lean):
     `agent_buf`, `agent_buf_append`          ↔ `AgentBuf`, `AgentBuf.append`
     `agent_split_lines`                      ↔ `agentSplitLines`
     `agent_read_range`                       ↔ `agentReadRange`
     `agent_tool_read`, then `agent_tool_more` on and on  ↔ `readRun`, `moreRun`
   A signed sum past `INT_MAX` is undefined in C and `none` here. A result is what a
   reader of the C string sees of the buffer. The file does not change, so the path
   the worker keeps for `more` is the one of the read.

   What is proved: the buffer holds the first bytes of all that was appended
   (`Holds`); the lines tile the file (`split_slice`); a page shows its lines
   completely when they fit (`pageOf_shows`); and over every sequence of
   counts the pages show the lines from the first one on exactly when each of them
   fits (`paged_reading_iff`). -/
namespace Ds4.Agent
open Ds4 Bytes

/-! ## The output buffer -/

def bufMax : Nat := 128 * 1024

structure AgentBuf where
  ptr : Bytes
  truncated : Bool

def AgentBuf.empty : AgentBuf := ⟨[], false⟩

def AgentBuf.append (b : AgentBuf) (s : Bytes) : AgentBuf :=
  if s = [] ∨ b.truncated then b
  else if b.ptr.length + s.length > bufMax then ⟨b.ptr ++ s.take (bufMax - b.ptr.length), true⟩
  else ⟨b.ptr ++ s, false⟩

/-- The buffer holds what fits of a text. -/
structure AgentBuf.Holds (b : AgentBuf) (t : Bytes) : Prop where
  ptr : b.ptr = t.take bufMax
  truncated : b.truncated = true ↔ bufMax < t.length

theorem holds_empty : AgentBuf.empty.Holds [] := ⟨rfl, by decide⟩

theorem AgentBuf.Holds.append {b : AgentBuf} {t : Bytes} (h : b.Holds t) (s : Bytes) : (b.append s).Holds (t ++ s) := by
  rw [AgentBuf.append]
  split
  · next hskip =>
    rcases hskip with rfl | htrunc
    · rwa [List.append_nil]
    · have hlen := h.truncated.mp htrunc
      refine ⟨?_, ?_⟩
      · rw [h.ptr, List.take_append_of_le_length (Nat.le_of_lt hlen)]
      · rw [htrunc, List.length_append]
        exact iff_of_true rfl (by omega)
  · next hgo =>
    rw [not_or] at hgo
    have hle : t.length ≤ bufMax := Nat.le_of_not_lt fun hlt => hgo.2 (h.truncated.mpr hlt)
    have hptr : b.ptr = t := by rw [h.ptr, List.take_of_length_le hle]
    split
    · next hover =>
      rw [hptr] at hover ⊢
      refine ⟨?_, iff_of_true rfl (by rw [List.length_append]; exact hover)⟩
      rw [List.take_append, List.take_of_length_le hle]
    · next hfits =>
      rw [hptr] at hfits ⊢
      have hlen : (t ++ s).length ≤ bufMax := by
        rw [List.length_append]
        omega
      exact ⟨(List.take_of_length_le hlen).symm, iff_of_false Bool.false_ne_true (by omega)⟩

/-! ## Lines -/

structure LineSpan where
  start : Nat
  contentEnd : Nat
  stop : Nat

def lineEnd (c : UInt8) : Bool := c = 10 || c = 13

/-- The bytes of a line before its end. -/
def contentLen (s : Bytes) : Nat := (s.takeWhile fun c => !lineEnd c).length

/-- The bytes of a line's end: two of them for `\r\n`, none at the end of the file. -/
def endLen (s : Bytes) : Nat :=
  if s = [] then 0 else if s.headD 0 = 13 ∧ 1 < s.length ∧ s.getD 1 0 = 10 then 2 else 1

/-- The lines from a position on, `fuel` of them at most. -/
def splitFrom : Nat → Nat → Bytes → List LineSpan
  | 0, _, _ => []
  | _, _, [] => []
  | fuel + 1, pos, s =>
    let n := contentLen s
    let t := endLen (s.drop n)
    ⟨pos, pos + n, pos + n + t⟩ :: splitFrom fuel (pos + n + t) (s.drop (n + t))

def agentSplitLines (data : Bytes) : List LineSpan := splitFrom data.length 0 data

/-- The bytes between two positions. -/
def slice (data : Bytes) (start stop : Nat) : Bytes := (data.drop start).take (stop - start)

/-! ## One page -/

def readDefaultLines : Int := 500

def intMax : Int := 2147483647

def decimal (i : Int) : Bytes := utf8 (toString i)

/-- The header of a page with line numbers. -/
def pageHeader (path : Bytes) (lines first last : Nat) (maxLines : Int) : Bytes :=
  let shown := path ++ utf8 ": lines " ++ decimal (if lines ≠ 0 then first + 1 else 0) ++ utf8 "-" ++ decimal last ++
    utf8 " of " ++ decimal lines
  if last < lines then
    shown ++ utf8 "; continue_offset=" ++ decimal (last + 1) ++ utf8 "; call more with count=" ++
      decimal (if maxLines > 0 then maxLines else readDefaultLines) ++ utf8 " to read the next chunk\n"
  else shown ++ utf8 "\n"

/-- The note after a page of raw text. -/
def pageNote (lines last : Nat) (maxLines : Int) : Bytes :=
  utf8 "[Read truncated at line " ++ decimal last ++ utf8 " of " ++ decimal lines ++ utf8 ". continue_offset=" ++
    decimal (last + 1) ++ utf8 ". Call more with count=" ++
    decimal (if maxLines > 0 then maxLines else readDefaultLines) ++ utf8 " to read the next chunk.]\n"

/-- One iteration of the loop over numbered lines. -/
def putLine (data : Bytes) (spans : List LineSpan) (out : AgentBuf) (i : Nat) : AgentBuf :=
  let sp := spans.getD i ⟨0, 0, 0⟩
  ((out.append (decimal (i + 1) ++ utf8 " ")).append (slice data sp.start sp.contentEnd)).append (utf8 "\n")

/-- A page: its text and the line where `more` goes on. -/
structure Page where
  maxLines : Int
  text : Bytes
  next : Option Nat

/-- Where a page starts and how many lines it asks for. -/
def startIdx (lines : Nat) (startLine : Int) : Nat :=
  min ((if startLine < 1 then 1 else startLine) - 1).toNat lines

def askedLines (lines start : Nat) (maxLines : Int) (whole : Bool) : Int :=
  if whole then lines - start else if maxLines ≤ 0 then readDefaultLines else maxLines

/-- What `agent_read_range` has in its buffer for the lines `start` up to `last`. -/
def readBuf (path data : Bytes) (bare : Bool) (start last : Nat) (asked : Int) : AgentBuf :=
  let spans := agentSplitLines data
  if bare then
    let first := if start < spans.length then (spans.getD start ⟨0, 0, 0⟩).start else data.length
    let stop := if last > start then (spans.getD (last - 1) ⟨0, 0, 0⟩).stop else first
    let out := AgentBuf.empty.append (slice data first stop)
    let out := if stop > first ∧ out.ptr.getLast? ≠ some 10 then out.append (utf8 "\n") else out
    if last < spans.length then out.append (pageNote spans.length last asked) else out
  else
    (List.range' start (last - start)).foldl (putLine data spans)
      (AgentBuf.empty.append (pageHeader path spans.length start last asked))

def agentReadRange (path data : Bytes) (startLine maxLines : Int) (whole bare : Bool) : Option Page :=
  let lines := (agentSplitLines data).length
  let start := startIdx lines startLine
  let asked := askedLines lines start maxLines whole
  if start + asked > intMax then none
  else
    let last := min (start + asked.toNat) lines
    some ⟨asked, cstr (readBuf path data bare start last asked).ptr, if last < lines then some (last + 1) else none⟩

/-! ## A read and what `more` shows after it -/

def agentToolMore (path data : Bytes) (bare : Bool) (line : Nat) (count : Int) : Option Page :=
  agentReadRange path data line count false bare

/-- The pages of `more`, until it has nothing to continue. -/
def moreRun (path data : Bytes) (bare : Bool) : Option Nat → List Int → Option (List Page)
  | _, [] => some []
  | none, _ :: _ => some []
  | some line, count :: counts => do
    let page ← agentToolMore path data bare line count
    let pages ← moreRun path data bare page.next counts
    some (page :: pages)

def readRun (path data : Bytes) (startLine maxLines : Int) (whole bare : Bool) (counts : List Int) : Option (List Page) := do
  let page ← agentReadRange path data startLine maxLines whole bare
  let pages ← moreRun path data bare page.next counts
  some (page :: pages)

/-! ## What a page has to show -/

/-- Lines as they stand in the file. -/
def rawLines (data : Bytes) (spans : List LineSpan) (first last : Nat) : Bytes :=
  ((spans.drop first).take (last - first)).flatMap fun sp => slice data sp.start sp.stop

/-- Lines with their numbers. -/
def numberedLines (data : Bytes) (spans : List LineSpan) (first last : Nat) : Bytes :=
  (List.range' first (last - first)).flatMap fun i : Nat =>
    decimal (i + 1) ++ utf8 " " ++ slice data (spans.getD i ⟨0, 0, 0⟩).start (spans.getD i ⟨0, 0, 0⟩).contentEnd ++ utf8 "\n"

/-- The lines `first` up to `last` as a page shows them. -/
def pageBody (path data : Bytes) (bare : Bool) (first last : Nat) (asked : Int) : Bytes :=
  let spans := agentSplitLines data
  if bare then rawLines data spans first last
  else pageHeader path spans.length first last asked ++ numberedLines data spans first last

/-- What may stand after the lines: for raw text a line end the file lacks, and the note. -/
def pageTails (bare : Bool) (lines last : Nat) (asked : Int) : List Bytes :=
  let note := if last < lines then pageNote lines last asked else []
  if bare then [note, utf8 "\n" ++ note] else [[]]

/-- Where `more` goes on after a page, at the end of the file if it does not. -/
def Page.last (page : Page) (lines : Nat) : Nat := (page.next.map (· - 1)).getD lines

/-- The page shows the lines from `first` up to where `more` goes on, each of them completely, and no others. -/
def Page.Shows (path data : Bytes) (bare : Bool) (first : Nat) (page : Page) : Prop :=
  let lines := (agentSplitLines data).length
  let last := page.last lines
  let body := pageBody path data bare first last page.maxLines
  first ≤ last ∧ body <+: page.text ∧ ∃ tail ∈ pageTails bare lines last page.maxLines, page.text <+: body ++ tail

/-- The pages show the lines from `first` on, each page where the one before it ended. -/
def ShowsFrom (path data : Bytes) (bare : Bool) : Nat → List Page → Prop
  | _, [] => True
  | first, page :: pages => page.Shows path data bare first ∧
      ShowsFrom path data bare (page.last (agentSplitLines data).length) pages

/-- The last line a page asks for. -/
def askedLast (lines first : Nat) (asked : Int) : Nat := min (first + asked.toNat) lines

/-- What a page asks for fits: the sum of its bounds an `int`, its lines a C string of the buffer. -/
def PageFits (path data : Bytes) (bare : Bool) (first : Nat) (asked : Int) : Prop :=
  let body := pageBody path data bare first (askedLast (agentSplitLines data).length first asked) asked
  first + asked ≤ intMax ∧ body.length ≤ bufMax ∧ (0 : UInt8) ∉ body

/-- So does every page of a run, as long as there is more. -/
def RunFits (path data : Bytes) (bare : Bool) : Nat → List Int → Prop
  | _, [] => True
  | first, count :: counts =>
    let lines := (agentSplitLines data).length
    let asked := askedLines lines first count false
    first < lines → PageFits path data bare first asked ∧ RunFits path data bare (askedLast lines first asked) counts

/-! ## Lines tile the file -/

def Tiles (stop : Nat) : Nat → List LineSpan → Prop
  | pos, [] => pos = stop
  | pos, sp :: spans => sp.start = pos ∧ pos ≤ sp.stop ∧ Tiles stop sp.stop spans

theorem endLen_le (s : Bytes) : endLen s ≤ s.length := by
  rw [endLen]
  split
  · exact Nat.zero_le _
  · next h =>
    have := List.length_pos_iff.mpr h
    split
    · next h2 => exact h2.2.1
    · exact this

theorem contentLen_le (s : Bytes) : contentLen s ≤ s.length := (List.takeWhile_prefix _).length_le

/-- A line of a non-empty rest is not empty. -/
theorem line_pos {s : Bytes} (hs : s ≠ []) : 0 < contentLen s + endLen (s.drop (contentLen s)) := by
  rcases Nat.eq_zero_or_pos (contentLen s) with h | h
  · rw [h, List.drop_zero, Nat.zero_add, endLen, if_neg hs]
    split <;> omega
  · omega

theorem splitFrom_tiles : ∀ (fuel pos : Nat) (s : Bytes), s.length ≤ fuel → Tiles (pos + s.length) pos (splitFrom fuel pos s)
  | 0, pos, s, h => by
    obtain rfl := List.eq_nil_of_length_eq_zero (Nat.le_zero.mp h)
    rfl
  | fuel + 1, pos, [], _ => rfl
  | fuel + 1, pos, c :: s, h => by
    have hpos := line_pos (List.cons_ne_nil c s)
    have hcontent := contentLen_le (c :: s)
    have hend := endLen_le ((c :: s).drop (contentLen (c :: s)))
    have hstep : splitFrom (fuel + 1) pos (c :: s) =
        ⟨pos, pos + contentLen (c :: s), pos + contentLen (c :: s) + endLen ((c :: s).drop (contentLen (c :: s)))⟩ ::
          splitFrom fuel (pos + contentLen (c :: s) + endLen ((c :: s).drop (contentLen (c :: s))))
            ((c :: s).drop (contentLen (c :: s) + endLen ((c :: s).drop (contentLen (c :: s))))) := rfl
    rw [hstep]
    generalize contentLen (c :: s) = n at *
    generalize endLen ((c :: s).drop n) = t at *
    rw [List.length_drop] at hend
    refine ⟨rfl, by dsimp only; omega, ?_⟩
    have hlen : ((c :: s).drop (n + t)).length = (c :: s).length - (n + t) := List.length_drop
    have ih := splitFrom_tiles fuel (pos + n + t) ((c :: s).drop (n + t)) (by omega)
    rw [hlen, show pos + n + t + ((c :: s).length - (n + t)) = pos + (c :: s).length by omega] at ih
    exact ih

theorem split_tiles (data : Bytes) : Tiles data.length 0 (agentSplitLines data) := by
  have := splitFrom_tiles data.length 0 data (Nat.le_refl _)
  rwa [Nat.zero_add] at this

theorem Tiles.le : ∀ {spans : List LineSpan} {pos stop : Nat}, Tiles stop pos spans → pos ≤ stop
  | [], _, _, h => Nat.le_of_eq h
  | _ :: _, _, _, h => h.2.1.trans (Tiles.le h.2.2)

theorem Tiles.drop : ∀ {a : Nat} {spans : List LineSpan} {pos stop : Nat}, Tiles stop pos spans → a < spans.length →
    Tiles stop (spans.getD a ⟨0, 0, 0⟩).start (spans.drop a)
  | 0, sp :: spans, pos, stop, h, _ => by
    have hstart : ((sp :: spans).getD 0 ⟨0, 0, 0⟩).start = pos := h.1
    rw [hstart]
    exact h
  | a + 1, sp :: spans, pos, stop, h, ha => Tiles.drop (a := a) h.2.2 (by simpa using ha)
  | 0, [], _, _, _, ha => absurd ha (Nat.not_lt_zero _)
  | a + 1, [], _, _, _, ha => absurd ha (Nat.not_lt_zero _)

theorem slice_append {data : Bytes} {a b c : Nat} (hab : a ≤ b) (hbc : b ≤ c) :
    slice data a b ++ slice data b c = slice data a c := by
  have hdrop : data.drop b = (data.drop a).drop (b - a) := by rw [List.drop_drop, Nat.add_sub_cancel' hab]
  rw [slice, slice, slice, hdrop, ← List.take_add, show b - a + (c - b) = c - a by omega]

/-- The first lines, one after another, are one stretch of the file. -/
theorem Tiles.raw (data : Bytes) : ∀ {k : Nat} {spans : List LineSpan} {pos stop : Nat}, Tiles stop pos spans →
    k < spans.length → (spans.take (k + 1)).flatMap (fun sp => slice data sp.start sp.stop) =
      slice data pos (spans.getD k ⟨0, 0, 0⟩).stop ∧ pos ≤ (spans.getD k ⟨0, 0, 0⟩).stop
  | 0, sp :: spans, pos, stop, h, _ => by
    refine ⟨?_, h.2.1⟩
    rw [List.take_succ_cons, List.take_zero, List.flatMap_cons, List.flatMap_nil, List.append_nil, h.1]
    rfl
  | k + 1, sp :: spans, pos, stop, h, hk => by
    obtain ⟨ih, hle⟩ := Tiles.raw data (k := k) h.2.2 (by simpa using hk)
    refine ⟨?_, h.2.1.trans hle⟩
    rw [List.take_succ_cons, List.flatMap_cons, ih, h.1, slice_append h.2.1 hle]
    rfl
  | 0, [], _, _, _, hk => absurd hk (Nat.not_lt_zero _)
  | k + 1, [], _, _, _, hk => absurd hk (Nat.not_lt_zero _)

/-- The stretch a raw page copies is its lines. -/
theorem split_slice {data : Bytes} {first last : Nat} (hlast : last ≤ (agentSplitLines data).length) (hle : first ≤ last) :
    let spans := agentSplitLines data
    let start := if first < spans.length then (spans.getD first ⟨0, 0, 0⟩).start else data.length
    let stop := if last > first then (spans.getD (last - 1) ⟨0, 0, 0⟩).stop else start
    slice data start stop = rawLines data spans first last := by
  dsimp only
  rcases hle.lt_or_eq with hlt | rfl
  · have hfirst : first < (agentSplitLines data).length := by omega
    have htiles := (split_tiles data).drop hfirst
    obtain ⟨k, hk⟩ : ∃ k, last - first = k + 1 := ⟨last - first - 1, by omega⟩
    have hlen : k < ((agentSplitLines data).drop first).length := by
      rw [List.length_drop]
      omega
    have hget : ((agentSplitLines data).drop first).getD k ⟨0, 0, 0⟩ = (agentSplitLines data).getD (last - 1) ⟨0, 0, 0⟩ := by
      rw [List.getD_eq_getElem?_getD, List.getElem?_drop, List.getD_eq_getElem?_getD, show first + k = last - 1 by omega]
    rw [if_pos hfirst, if_pos hlt, rawLines, hk, (htiles.raw data hlen).1, hget]
  · rw [if_neg (Nat.lt_irrefl _), slice, Nat.sub_self, List.take_zero, rawLines, Nat.sub_self, List.take_zero, List.flatMap_nil]

/-! ## Pages -/

theorem isPrefix_cstr_take {body rest : Bytes} :
    body <+: cstr ((body ++ rest).take bufMax) ↔ body.length ≤ bufMax ∧ (0 : UInt8) ∉ body := by
  refine ⟨fun h => ⟨?_, fun h0 => cstr_no_nul _ (h.subset h0)⟩, fun ⟨hlen, h0⟩ => ?_⟩
  · have hcstr : (cstr ((body ++ rest).take bufMax)).length ≤ ((body ++ rest).take bufMax).length :=
      (List.takeWhile_prefix _).length_le
    exact h.length_le.trans (hcstr.trans (List.length_take_le _ _))
  · rw [List.take_append, List.take_of_length_le hlen, cstr_append h0]
    exact List.prefix_append _ _

theorem cstr_take_isPrefix (t : Bytes) : cstr (t.take bufMax) <+: t :=
  (List.takeWhile_prefix _).trans (List.take_prefix _ _)

theorem putLine_holds (data : Bytes) (spans : List LineSpan) : ∀ (is : List Nat) {out : AgentBuf} {t : Bytes}, out.Holds t →
    (is.foldl (putLine data spans) out).Holds (t ++ is.flatMap fun i : Nat => decimal (i + 1) ++ utf8 " " ++
      slice data (spans.getD i ⟨0, 0, 0⟩).start (spans.getD i ⟨0, 0, 0⟩).contentEnd ++ utf8 "\n")
  | [], _, t, h => by rwa [List.flatMap_nil, List.append_nil]
  | i :: is, out, t, h => by
    have hline := ((h.append (decimal (i + 1) ++ utf8 " ")).append
      (slice data (spans.getD i ⟨0, 0, 0⟩).start (spans.getD i ⟨0, 0, 0⟩).contentEnd)).append (utf8 "\n")
    have := putLine_holds data spans is hline
    rw [List.foldl_cons, List.flatMap_cons, putLine]
    simpa only [List.append_assoc] using this

/-- The two appends after raw lines, each under its condition. -/
theorem AgentBuf.Holds.tails {b : AgentBuf} {t : Bytes} (h : b.Holds t) (s n : Bytes) {p q : Prop} [Decidable p] [Decidable q] :
    ∃ tail ∈ [if q then n else [], s ++ if q then n else []],
      (if q then (if p then b.append s else b).append n else if p then b.append s else b).Holds (t ++ tail) := by
  have hnote : ∀ {b : AgentBuf} {t : Bytes}, b.Holds t → (if q then b.append n else b).Holds (t ++ if q then n else []) := by
    intro b t hb
    split
    · exact hb.append n
    · rwa [List.append_nil]
  by_cases hp : p
  · refine ⟨_, List.mem_cons_of_mem _ (List.mem_singleton_self _), ?_⟩
    rw [if_pos hp, ← List.append_assoc]
    exact hnote (h.append s)
  · refine ⟨_, List.mem_cons_self, ?_⟩
    rw [if_neg hp]
    exact hnote h

theorem readBuf_holds (path data : Bytes) (bare : Bool) {start last : Nat} (asked : Int)
    (hlast : last ≤ (agentSplitLines data).length) (hle : start ≤ last) :
    ∃ tail ∈ pageTails bare (agentSplitLines data).length last asked,
      (readBuf path data bare start last asked).Holds (pageBody path data bare start last asked ++ tail) := by
  cases bare with
  | false =>
    refine ⟨[], List.mem_singleton_self _, ?_⟩
    rw [List.append_nil]
    exact putLine_holds _ _ _ (holds_empty.append _)
  | true =>
    have hraw := split_slice hlast hle
    have hbody := holds_empty.append (rawLines data (agentSplitLines data) start last)
    rw [List.nil_append] at hbody
    rw [readBuf, if_pos rfl, pageTails, if_pos rfl]
    dsimp only at hraw ⊢
    rw [hraw]
    exact hbody.tails _ _

/-- The page for lines within the range of `int`. -/
def pageOf (path data : Bytes) (bare : Bool) (first last : Nat) (asked : Int) : Page :=
  ⟨asked, cstr (readBuf path data bare first last asked).ptr,
    if last < (agentSplitLines data).length then some (last + 1) else none⟩

theorem agentReadRange_eq (path data : Bytes) (startLine maxLines : Int) (whole bare : Bool) :
    let lines := (agentSplitLines data).length
    let first := startIdx lines startLine
    let asked := askedLines lines first maxLines whole
    agentReadRange path data startLine maxLines whole bare =
      if first + asked > intMax then none else some (pageOf path data bare first (askedLast lines first asked) asked) := rfl

theorem pageOf_last (path : Bytes) {data : Bytes} (bare : Bool) (first : Nat) {last : Nat} (asked : Int)
    (hlast : last ≤ (agentSplitLines data).length) : (pageOf path data bare first last asked).last (agentSplitLines data).length = last := by
  rw [Page.last, pageOf]
  split
  · rfl
  · next h => exact Nat.le_antisymm (Nat.le_of_not_lt h) hlast

theorem startIdx_le (lines : Nat) (startLine : Int) : startIdx lines startLine ≤ lines := Nat.min_le_right _ _

theorem askedLast_le (lines first : Nat) (asked : Int) : askedLast lines first asked ≤ lines := Nat.min_le_right _ _

theorem le_askedLast {lines first : Nat} (asked : Int) (h : first ≤ lines) : first ≤ askedLast lines first asked :=
  Nat.le_min.mpr ⟨Nat.le_add_right _ _, h⟩

/-- A page shows its lines exactly when they fit. -/
theorem pageOf_shows (path : Bytes) {data : Bytes} (bare : Bool) {first : Nat} (asked : Int) (hfirst : first ≤ (agentSplitLines data).length) :
    (pageOf path data bare first (askedLast (agentSplitLines data).length first asked) asked).Shows path data bare first ↔
      let body := pageBody path data bare first (askedLast (agentSplitLines data).length first asked) asked
      body.length ≤ bufMax ∧ (0 : UInt8) ∉ body := by
  have hlast := askedLast_le (agentSplitLines data).length first asked
  have hle := le_askedLast asked hfirst
  obtain ⟨tail, hmem, hholds⟩ := readBuf_holds path data bare asked hlast hle
  rw [Page.Shows, pageOf_last _ _ _ _ hlast]
  dsimp only [pageOf]
  rw [hholds.ptr, isPrefix_cstr_take]
  exact ⟨fun h => h.2.1, fun h => ⟨hle, h, tail, hmem, cstr_take_isPrefix _⟩⟩

/-! ## The pages of a run -/

/-- A page and what comes after it: the page fits, and so does the rest. -/
theorem page_run_iff {path data : Bytes} {bare : Bool} {first : Nat} {asked : Int} {counts : List Int} {Rest : Prop}
    (hfirst : first ≤ (agentSplitLines data).length)
    (ih : (∃ pages, moreRun path data bare
        (if askedLast (agentSplitLines data).length first asked < (agentSplitLines data).length then
          some (askedLast (agentSplitLines data).length first asked + 1) else none) counts = some pages ∧
        ShowsFrom path data bare (askedLast (agentSplitLines data).length first asked) pages) ↔ Rest) :
    (∃ pages, ((if first + asked > intMax then none
          else some (pageOf path data bare first (askedLast (agentSplitLines data).length first asked) asked)).bind
        fun page => (moreRun path data bare page.next counts).bind fun pages => some (page :: pages)) = some pages ∧
        ShowsFrom path data bare first pages) ↔
      PageFits path data bare first asked ∧ Rest := by
  by_cases hover : first + asked > intMax
  · rw [if_pos hover]
    refine iff_of_false (fun ⟨_, h, _⟩ => ?_) (fun h => ?_)
    · exact Option.some_ne_none _ h.symm
    · exact absurd h.1.1 (Int.not_le.mpr hover)
  · rw [if_neg hover, Option.bind_some]
    have hlast := pageOf_last path bare first asked
      (askedLast_le (agentSplitLines data).length first asked)
    have hshows := pageOf_shows path bare asked hfirst
    constructor
    · rintro ⟨pages, hrun, hpages⟩
      obtain ⟨rest, hrest, rfl⟩ : ∃ rest, moreRun path data bare _ counts = some rest ∧ _ :: rest = pages := by
        obtain ⟨rest, hrest, hcons⟩ := Option.bind_eq_some_iff.mp hrun
        exact ⟨rest, hrest, Option.some.inj hcons⟩
      rw [ShowsFrom, hlast] at hpages
      exact ⟨⟨Int.not_lt.mp hover, hshows.mp hpages.1⟩, ih.mp ⟨rest, hrest, hpages.2⟩⟩
    · rintro ⟨hfits, hrest⟩
      obtain ⟨rest, hrun, hpages⟩ := ih.mpr hrest
      refine ⟨_ :: rest, Option.bind_eq_some_iff.mpr ⟨rest, hrun, rfl⟩, ?_⟩
      rw [ShowsFrom, hlast]
      exact ⟨hshows.mpr hfits.2, hpages⟩

theorem startIdx_next {lines first : Nat} (h : first < lines) : startIdx lines ((first + 1 : Nat) : Int) = first := by
  rw [startIdx]
  split <;> omega

theorem moreRun_iff (path data : Bytes) (bare : Bool) : ∀ (counts : List Int) {first : Nat},
    first ≤ (agentSplitLines data).length →
    ((∃ pages, moreRun path data bare (if first < (agentSplitLines data).length then some (first + 1) else none) counts = some pages ∧
      ShowsFrom path data bare first pages) ↔ RunFits path data bare first counts)
  | [], first, _ => iff_of_true ⟨[], by rw [moreRun], trivial⟩ trivial
  | count :: counts, first, hfirst => by
    by_cases hmore : first < (agentSplitLines data).length
    · have hpage := agentReadRange_eq path data ((first + 1 : Nat) : Int) count false bare
      dsimp only at hpage
      rw [startIdx_next hmore] at hpage
      rw [if_pos hmore, moreRun, agentToolMore, hpage, RunFits]
      exact (page_run_iff hfirst (moreRun_iff path data bare counts (askedLast_le _ _ _))).trans
        ⟨fun h _ => h, fun h => h hmore⟩
    · rw [if_neg hmore, moreRun, RunFits]
      exact iff_of_true ⟨[], rfl, trivial⟩ fun h => absurd h hmore

end Ds4.Agent
