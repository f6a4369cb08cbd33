import Ds4.Bytes

/- The `edit` tool of ds4_agent.c: one span of a file is replaced.

   Correspondence (C ↔ Lean):
     `agent_memmem_simple`                         ↔ `agentMemmemSimple`
     `agent_find_unique`, `agent_find_unique_after` ↔ `agentFindUnique`, `agentFindUniqueAfter`
     `agent_edit_find_old_span`                    ↔ `agentEditFindOldSpan`
     `agent_preflight_edit_old`                    ↔ `agentPreflightEditOld`
     `agent_edit_upto_forcer_should_replace`       ↔ `agentEditUptoForcerShouldReplace`
     `agent_write_file_bytes`, `agent_tool_edit`   ↔ `agentWriteFileBytes`, `agentToolEdit`
   The file system enters as what goes wrong (`FileIo`): reading may fail, and a write
   may fail at opening, at writing or at closing, with some first bytes of the new
   text in the file. The report of an edit that worked is left out.

   What is proved: the two searches find the one occurrence there is, overlapping ones
   counted (`agentFindUniqueAfter_ok_iff`); the span is the one `old` selects
   (`agentEditFindOldSpan_ok_iff`); and an edit is exact or leaves the file alone,
   except for a write that fails after the file was opened (`edit_exact_iff`). -/
namespace Ds4.Agent
open Ds4 Bytes

/-! ## Calls -/

structure AgentToolArg where
  name : Bytes
  value : Bytes

structure AgentToolCall where
  name : Bytes
  args : List AgentToolArg

def agentToolArgValue (call : AgentToolCall) (name : Bytes) : Option Bytes :=
  (call.args.find? fun arg => arg.name == name).map fun arg => cstr arg.value

/-- The call with the arguments that came later. -/
def AgentToolCall.add (call : AgentToolCall) (later : List AgentToolArg) : AgentToolCall :=
  { call with args := call.args ++ later }

theorem agentToolArgValue_add {call : AgentToolCall} {name value : Bytes} (h : agentToolArgValue call name = some value)
    (later : List AgentToolArg) : agentToolArgValue (call.add later) name = some value := by
  obtain ⟨arg, hfind, hvalue⟩ := Option.map_eq_some_iff.mp h
  rw [agentToolArgValue, AgentToolCall.add, List.find?_append, hfind, Option.some_or, Option.map_some, hvalue]

/-! ## Occurrences -/

/-- A text stands at a position of another, overlapping occurrences counted. -/
def Occurs (needle hay : Bytes) (i : Nat) : Prop := needle <+: hay.drop i

/-- One position from `start` on, and no other. -/
def OnceFrom (needle hay : Bytes) (start i : Nat) : Prop :=
  start ≤ i ∧ Occurs needle hay i ∧ ∀ j, start ≤ j → Occurs needle hay j → j = i

theorem occurs_drop {needle hay : Bytes} {k i : Nat} : Occurs needle (hay.drop k) i ↔ Occurs needle hay (k + i) := by
  rw [Occurs, Occurs, List.drop_drop]

theorem Occurs.le {needle hay : Bytes} {i : Nat} (h : Occurs needle hay i) (hne : needle ≠ []) :
    i + needle.length ≤ hay.length := by
  have hlen := h.length_le
  have hpos := List.length_pos_iff.mpr hne
  rw [List.length_drop] at hlen
  omega

theorem OnceFrom.unique {needle hay : Bytes} {start i j : Nat} (hi : OnceFrom needle hay start i)
    (hj : OnceFrom needle hay start j) : i = j := hj.2.2 i hi.1 hi.2.1

def agentMemmemSimple (hay needle : Bytes) : Option Nat :=
  if needle = [] then some 0
  else if needle.length > hay.length then none
  else (List.range (hay.length - needle.length + 1)).find? fun i => needle.isPrefixOf (hay.drop i)

theorem memmem_none_iff {hay needle : Bytes} (hne : needle ≠ []) :
    agentMemmemSimple hay needle = none ↔ ∀ i, ¬Occurs needle hay i := by
  rw [agentMemmemSimple, if_neg hne]
  split
  · next hlong => exact iff_of_true rfl fun i h => absurd (h.le hne) (by omega)
  · rw [List.find?_eq_none]
    constructor
    · intro h i hocc
      have hle := hocc.le hne
      exact h i (List.mem_range.mpr (by omega)) (List.isPrefixOf_iff_prefix.mpr hocc)
    · exact fun h i _ hocc => h i (List.isPrefixOf_iff_prefix.mp hocc)

theorem memmem_some_iff {hay needle : Bytes} (hne : needle ≠ []) {i : Nat} :
    agentMemmemSimple hay needle = some i ↔ Occurs needle hay i ∧ ∀ j < i, ¬Occurs needle hay j := by
  rw [agentMemmemSimple, if_neg hne]
  split
  · next hlong =>
    refine iff_of_false (Option.some_ne_none i).symm fun h => ?_
    have := h.1.le hne
    omega
  · rw [List.find?_range_eq_some]
    constructor
    · rintro ⟨hocc, -, hbefore⟩
      refine ⟨List.isPrefixOf_iff_prefix.mp hocc, fun j hj hj' => ?_⟩
      have := hbefore j hj
      rw [List.isPrefixOf_iff_prefix.mpr hj'] at this
      exact absurd this (by decide)
    · rintro ⟨hocc, hbefore⟩
      have hle := hocc.le hne
      refine ⟨List.isPrefixOf_iff_prefix.mpr hocc, List.mem_range.mpr (by omega), fun j hj => ?_⟩
      rw [Bool.not_eq_true', ← Bool.not_eq_true]
      exact fun h => hbefore j hj (List.isPrefixOf_iff_prefix.mp h)

/-! ## The one occurrence -/

def agentFindUnique (data needle : Bytes) (label : String) : Except String Nat :=
  if needle = [] then .error (label ++ " anchor is empty")
  else
    match agentMemmemSimple data needle with
    | none => .error (label ++ " anchor not found")
    | some first =>
      match agentMemmemSimple (data.drop (first + 1)) needle with
      | some _ => .error (label ++ " anchor is not unique")
      | none => .ok first

def agentFindUniqueAfter (data : Bytes) (start : Nat) (needle : Bytes) (label : String) : Except String Nat :=
  if needle = [] then .error (label ++ " anchor is empty")
  else if start > data.length then .error (label ++ " search starts outside file")
  else
    match agentMemmemSimple (data.drop start) needle with
    | none => .error (label ++ " anchor not found after old head")
    | some first =>
      match agentMemmemSimple (data.drop (start + first + 1)) needle with
      | some _ => .error (label ++ " anchor is not unique after old head")
      | none => .ok (start + first)

/-- A first occurrence without a second one behind it is the only one. -/
theorem onceFrom_of_first {data needle : Bytes} {start first : Nat} (hne : needle ≠ [])
    (hfirst : agentMemmemSimple (data.drop start) needle = some first) :
    agentMemmemSimple (data.drop (start + first + 1)) needle = none ↔ OnceFrom needle data start (start + first) := by
  rw [memmem_some_iff hne, occurs_drop] at hfirst
  rw [memmem_none_iff hne]
  constructor
  · intro hnone
    refine ⟨Nat.le_add_right _ _, hfirst.1, fun j hj hocc => ?_⟩
    rcases Nat.lt_trichotomy j (start + first) with hlt | heq | hgt
    · refine absurd ?_ (hfirst.2 (j - start) (by omega))
      rwa [occurs_drop, Nat.add_sub_cancel' hj]
    · exact heq
    · refine absurd ?_ (hnone (j - (start + first + 1)))
      rwa [occurs_drop, show start + first + 1 + (j - (start + first + 1)) = j by omega]
  · intro honce i hocc
    have := honce.2.2 _ (by omega) (occurs_drop.mp hocc)
    omega

theorem agentFindUniqueAfter_ok_iff {data needle : Bytes} {start i : Nat} (label : String) (hstart : start ≤ data.length) :
    agentFindUniqueAfter data start needle label = .ok i ↔ needle ≠ [] ∧ OnceFrom needle data start i := by
  rw [agentFindUniqueAfter]
  split
  · next he => exact iff_of_false (fun h => by cases h) fun h => h.1 he
  · next hne =>
    rw [if_neg (Nat.not_lt.mpr hstart)]
    cases hfirst : agentMemmemSimple (data.drop start) needle with
    | none =>
      refine iff_of_false (fun h => by cases h) fun ⟨_, honce⟩ => ?_
      refine (memmem_none_iff hne).mp hfirst (i - start) ?_
      rw [occurs_drop, Nat.add_sub_cancel' honce.1]
      exact honce.2.1
    | some first =>
      have honce := onceFrom_of_first hne hfirst
      dsimp only
      cases hsecond : agentMemmemSimple (data.drop (start + first + 1)) needle with
      | none =>
        have h := honce.mp hsecond
        exact ⟨fun he => ⟨hne, (Except.ok.inj he) ▸ h⟩, fun hi => congrArg Except.ok (h.unique hi.2)⟩
      | some second =>
        refine iff_of_false (fun h => by cases h) fun ⟨_, hi⟩ => ?_
        have hat : Occurs needle data (start + first) := occurs_drop.mp ((memmem_some_iff hne).mp hfirst).1
        obtain rfl := hi.2.2 _ (Nat.le_add_right _ _) hat
        rw [honce.mpr hi] at hsecond
        exact Option.some_ne_none _ hsecond.symm

theorem agentFindUnique_ok_iff {data needle : Bytes} {i : Nat} {label : String} :
    agentFindUnique data needle label = .ok i ↔ needle ≠ [] ∧ OnceFrom needle data 0 i := by
  rw [← agentFindUniqueAfter_ok_iff label (Nat.zero_le _), agentFindUnique, agentFindUniqueAfter]
  split
  · exact iff_of_false (fun h => by cases h) (fun h => by cases h)
  · rw [if_neg (Nat.not_lt_zero _), List.drop_zero]
    cases agentMemmemSimple data needle with
    | none => exact iff_of_false (fun h => by cases h) (fun h => by cases h)
    | some first =>
      dsimp only
      rw [Nat.zero_add]
      cases agentMemmemSimple (data.drop (first + 1)) needle with
      | none => rfl
      | some second => exact iff_of_false (fun h => by cases h) (fun h => by cases h)

/-! ## The span that `old` selects -/

def marker : Bytes := utf8 "[upto]"

/-- One of the bytes a line ends with. -/
def isNewline (c : UInt8) : Bool := c = 10 || c = 13

def agentSpanHasNonspace (s : Bytes) : Bool := s.any fun c => !isSpace c

structure EditSpan where
  start : Nat
  len : Nat
  anchored : Bool

def agentEditFindOldSpan (data old : Bytes) : Except String EditSpan :=
  match strstr marker old with
  | none => (agentFindUnique data old "old text").map fun start => ⟨start, old.length, false⟩
  | some (head, rest) =>
    let after := rest.drop marker.length
    if (strstr marker after).isSome then .error "old text contains more than one [upto] marker"
    else
      let tail := after.dropWhile isNewline
      if !agentSpanHasNonspace tail then .error "old text after [upto] must include a unique tail anchor"
      else do
        let headPos ← agentFindUnique data head "old head"
        let tailPos ← agentFindUniqueAfter data (headPos + head.length) tail "old tail"
        .ok ⟨headPos, tailPos - headPos + tail.length, true⟩

/-- The bytes `start` up to `stop` of a file are what an old text means: the one place where it
    stands, or all from the one head up to the end of the one tail after it. -/
inductive Selects (data old : Bytes) : Nat → Nat → Prop
  | text {start : Nat} : ¬marker <:+: old → old ≠ [] → OnceFrom old data 0 start → Selects data old start (start + old.length)
  | anchors {head after : Bytes} {start tailPos : Nat} : old = head ++ (marker ++ after) → ¬marker <:+: head → ¬marker <:+: after →
      head ≠ [] → (∃ c ∈ after.dropWhile isNewline, isSpace c = false) → OnceFrom head data 0 start →
      OnceFrom (after.dropWhile isNewline) data (start + head.length) tailPos →
      Selects data old start (tailPos + (after.dropWhile isNewline).length)

theorem hasNonspace_iff {s : Bytes} : agentSpanHasNonspace s = true ↔ ∃ c ∈ s, isSpace c = false := by
  rw [agentSpanHasNonspace, List.any_eq_true]
  simp only [Bool.not_eq_true']

/-- The marker does not overlap itself. -/
theorem strstr_marker {head : Bytes} (after : Bytes) (h : ¬marker <:+: head) :
    strstr marker (head ++ (marker ++ after)) = some (head, marker ++ after) :=
  strstr_append (d := 91) (l := utf8 "upto]") (by decide) after head h

theorem strstr_marker_none {s : Bytes} : strstr marker s = none ↔ ¬marker <:+: s := by
  refine ⟨fun h hin => strstr_of_infix hin h, fun h => ?_⟩
  cases hs : strstr marker s with
  | none => rfl
  | some r =>
    obtain ⟨rfl, hstart⟩ := strstr_sound (a := r.1) (r := r.2) hs
    obtain ⟨k, hk⟩ := startsWith_iff.mp hstart
    exact absurd ⟨r.1, k, by rw [hk, List.append_assoc]⟩ h

/-- Where `strstr` stops there is no marker before. -/
theorem strstr_marker_head {s : Bytes} {r : Bytes × Bytes} (h : strstr marker s = some r) : ¬marker <:+: r.1 := by
  obtain ⟨head, rest⟩ := r
  rintro ⟨a, b, hab⟩
  dsimp only at hab
  obtain ⟨rfl, -⟩ := strstr_sound h
  have hpos : a.length < head.length := by
    rw [← hab, List.length_append, List.length_append]
    have : 0 < marker.length := by decide
    omega
  have hno := (strstr_index h).2 a.length hpos
  rw [← hab, List.append_assoc, List.append_assoc, List.drop_left, startsWith_append] at hno
  exact absurd hno (by decide)

/-- Without a marker the old text itself is searched. -/
theorem findOldSpan_text {data old : Bytes} {a b : Nat} (hno : ¬marker <:+: old) :
    (∃ span, agentEditFindOldSpan data old = .ok span ∧ span.start = a ∧ span.start + span.len = b) ↔ Selects data old a b := by
  have hfind : agentEditFindOldSpan data old =
      (agentFindUnique data old "old text").map fun start => ⟨start, old.length, false⟩ := by
    rw [agentEditFindOldSpan, strstr_marker_none.mpr hno]
  rw [hfind]
  constructor
  · rintro ⟨span, hspan, rfl, rfl⟩
    cases hu : agentFindUnique data old "old text" with
    | error e =>
      rw [hu] at hspan
      cases hspan
    | ok start =>
      rw [hu] at hspan
      cases hspan
      obtain ⟨hne, honce⟩ := agentFindUnique_ok_iff.mp hu
      exact .text hno hne honce
  · intro h
    cases h with
    | text _ hne honce =>
      refine ⟨⟨a, old.length, false⟩, ?_, rfl, rfl⟩
      rw [agentFindUnique_ok_iff.mpr ⟨hne, honce⟩]
      rfl
    | anchors hold => exact absurd ⟨_, _, by rw [hold, List.append_assoc]⟩ hno

theorem bind_ok_iff {ε α β : Type} {x : Except ε α} {f : α → Except ε β} {b : β} :
    (x >>= f) = .ok b ↔ ∃ a, x = .ok a ∧ f a = .ok b := by
  cases x with
  | error e => exact iff_of_false (fun h => by cases h) fun ⟨a, h, _⟩ => by cases h
  | ok a => exact ⟨fun h => ⟨a, rfl, h⟩, fun ⟨a', ha, h⟩ => (Except.ok.inj ha) ▸ h⟩

/-- With one marker the head is searched in the file and the tail after it. -/
theorem findOldSpan_anchors {data head after : Bytes} {a b : Nat} (hhead : ¬marker <:+: head) :
    (∃ span, agentEditFindOldSpan data (head ++ (marker ++ after)) = .ok span ∧ span.start = a ∧ span.start + span.len = b) ↔
      Selects data (head ++ (marker ++ after)) a b := by
  have hstr := strstr_marker after hhead
  constructor
  · rintro ⟨span, hspan, rfl, rfl⟩
    rw [agentEditFindOldSpan, hstr] at hspan
    dsimp only at hspan
    rw [List.drop_left] at hspan
    split at hspan
    · cases hspan
    · next hone =>
      split at hspan
      · cases hspan
      · next hspace =>
        obtain ⟨headPos, hu, hspan⟩ := bind_ok_iff.mp hspan
        obtain ⟨tailPos, ht, hspan⟩ := bind_ok_iff.mp hspan
        obtain ⟨hne, honce⟩ := agentFindUnique_ok_iff.mp hu
        obtain ⟨-, htail⟩ := (agentFindUniqueAfter_ok_iff _ (honce.2.1.le hne)).mp ht
        cases hspan
        rw [show headPos + (tailPos - headPos + (after.dropWhile isNewline).length) =
          tailPos + (after.dropWhile isNewline).length by have := htail.1; omega]
        refine .anchors rfl hhead ?_ hne (hasNonspace_iff.mp (by simpa using hspace)) honce htail
        rw [← strstr_marker_none]
        exact Option.not_isSome_iff_eq_none.mp hone
  · intro h
    cases h with
    | text hno => exact absurd ⟨head, after, by rw [List.append_assoc]⟩ hno
    | @anchors head' after' start tailPos hold hhead' hafter hne hspace honce htail =>
      have hsame := strstr_marker after' hhead'
      rw [← hold, hstr] at hsame
      obtain ⟨rfl, hrest⟩ := Prod.mk.inj (Option.some.inj hsame)
      obtain rfl := List.append_cancel_left hrest
      obtain ⟨c, hc, -⟩ := id hspace
      refine ⟨⟨a, tailPos - a + (after.dropWhile isNewline).length, true⟩, ?_, rfl, ?_⟩
      · rw [agentEditFindOldSpan, hstr]
        dsimp only
        rw [List.drop_left, strstr_marker_none.mpr hafter, if_neg (by decide), if_neg (by simpa using hasNonspace_iff.mpr hspace)]
        refine bind_ok_iff.mpr ⟨a, agentFindUnique_ok_iff.mpr ⟨hne, honce⟩, bind_ok_iff.mpr ⟨tailPos, ?_, rfl⟩⟩
        exact (agentFindUniqueAfter_ok_iff _ (honce.2.1.le hne)).mpr ⟨List.ne_nil_of_mem hc, htail⟩
      · have := htail.1
        dsimp only
        omega

theorem agentEditFindOldSpan_ok_iff {data old : Bytes} {a b : Nat} :
    (∃ span, agentEditFindOldSpan data old = .ok span ∧ span.start = a ∧ span.start + span.len = b) ↔ Selects data old a b := by
  cases hs : strstr marker old with
  | none => exact findOldSpan_text (strstr_marker_none.mp hs)
  | some r =>
    obtain ⟨hold, hstart⟩ := strstr_sound (a := r.1) (r := r.2) hs
    obtain ⟨after, hafter⟩ := startsWith_iff.mp hstart
    have hhead := strstr_marker_head hs
    rw [hold, hafter]
    exact findOldSpan_anchors hhead

/-! ## Reading and writing -/

def fileMaxBytes : Nat := 16 * 1024 * 1024

/-- Where a write goes wrong; past opening, some first bytes of the new text are in the file. -/
inductive WriteFault
  | none
  | opening (reason : Bytes)
  | writing (reason : Bytes) (written : Nat)
  | closing (reason : Bytes) (written : Nat)

inductive ReadFault
  | opening (reason : Bytes)
  | reading (reason : Bytes)

structure FileIo where
  readError : Option ReadFault
  write : WriteFault

/-- A message in the caller's `char err[256]`. -/
def errText (s : Bytes) : Bytes := s.take 255

def agentReadFileBytes (io : FileIo) (path file : Bytes) : Except Bytes Bytes :=
  match io.readError with
  | some (.opening reason) => .error (errText (utf8 "open " ++ path ++ utf8 ": " ++ reason))
  | some (.reading reason) => .error (errText (utf8 "read " ++ path ++ utf8 ": " ++ reason))
  | none =>
    if file.length > fileMaxBytes then
      .error (errText (utf8 "file too large: " ++ path ++ utf8 " exceeds 16777216 bytes"))
    else .ok file

/-- What is reported, and what the file is afterwards: `fopen` with `"wb"` empties it. -/
def agentWriteFileBytes (io : FileIo) (path file data : Bytes) : Except Bytes Unit × Bytes :=
  match io.write with
  | .opening reason => (.error (errText (utf8 "open " ++ path ++ utf8 ": " ++ reason)), file)
  | .writing reason written => (.error (errText (utf8 "write " ++ path ++ utf8 ": " ++ reason)), data.take written)
  | .closing reason written => (.error (errText (utf8 "close " ++ path ++ utf8 ": " ++ reason)), data.take written)
  | .none => (.ok (), data)

/-! ## The tool -/

def toolError (err : Bytes) : Bytes := utf8 "Tool error: " ++ err ++ utf8 "\n"

def splice (data : Bytes) (start stop : Nat) (insert : Bytes) : Bytes := data.take start ++ insert ++ data.drop stop

/-- The error an edit reports, none if it worked, and the file afterwards. -/
def agentToolEdit (call : AgentToolCall) (io : FileIo) (file : Bytes) : Option Bytes × Bytes :=
  let path := (agentToolArgValue call (utf8 "path")).getD []
  if path = [] then (some (utf8 "Tool error: edit requires path\n"), file)
  else
    let old := (agentToolArgValue call (utf8 "old")).getD []
    if old = [] then (some (utf8 "Tool error: edit requires non-empty old text\n"), file)
    else
      match agentToolArgValue call (utf8 "new") with
      | none => (some (utf8 "Tool error: edit requires new text\n"), file)
      | some newText =>
        match agentReadFileBytes io path file with
        | .error err => (some (toolError err), file)
        | .ok data =>
          match agentEditFindOldSpan data old with
          | .error err => (some (toolError (utf8 err)), file)
          | .ok span =>
            match agentWriteFileBytes io path file (splice data span.start (span.start + span.len) newText) with
            | (.error err, after) => (some (toolError err), after)
            | (.ok (), after) => (none, after)

/-- The check of `old` when its parameter is closed; `none` lets the model go on. -/
def agentPreflightEditOld (call : AgentToolCall) (io : FileIo) (file : Bytes) : Option Bytes :=
  let path := (agentToolArgValue call (utf8 "path")).getD []
  if path = [] then none
  else
    let old := (agentToolArgValue call (utf8 "old")).getD []
    if old = [] then some (utf8 "edit requires non-empty old text")
    else
      match agentReadFileBytes io path file with
      | .error err => some err
      | .ok data =>
        match agentEditFindOldSpan data old with
        | .error err => some (utf8 err)
        | .ok _ => none

/-! ## The marker that is written for the model -/

structure AgentEditUptoForcer where
  active : Bool
  done : Bool

/-- What the forcer reads of the DSML parser: `value` is the raw text since the parameter's start. -/
structure OpenParam where
  inValue : Bool
  current : AgentToolCall
  paramName : Option Bytes
  value : Bytes

def isBlank (c : UInt8) : Bool := c = 32 || c = 9 || c = 13 || c = 10

def agentEditOldMayBeClosingTag (text : Bytes) : Bool := (text.dropWhile isBlank).head? = some 60

def agentEditOldIsOnlySpace (text : Bytes) : Bool := text.all isBlank

/-- The complete lines with text, and whether the open line has some. -/
def countLines (st : Nat × Bool) (c : UInt8) : Nat × Bool :=
  if c = 10 then (if st.2 then st.1 + 1 else st.1, false)
  else (st.1, st.2 || !isSpace c)

def agentEditOldPrefixMatureForUpto (old : Bytes) : Bool :=
  64 ≤ old.length && 2 ≤ (old.foldl countLines (0, false)).1

def agentEditOldReadyForUpto (old : Bytes) : Bool :=
  !(old.isEmpty || (strstr marker (cstr old)).isSome) && agentEditOldPrefixMatureForUpto old &&
    (old.reverse.dropWhile fun c => c = 32 || c = 9 || c = 13).head? = some 10

def agentEditUptoForcerShouldReplace (forcer : AgentEditUptoForcer) (p : OpenParam) (nextText : Bytes) (io : FileIo)
    (file : Bytes) : Bool × AgentEditUptoForcer :=
  if !(p.inValue && p.current.name == utf8 "edit" && p.paramName == some (utf8 "old")) then (false, ⟨false, false⟩)
  else
    let forcer := if forcer.active then forcer else ⟨true, false⟩
    let path := (agentToolArgValue p.current (utf8 "path")).getD []
    if forcer.done || agentEditOldMayBeClosingTag nextText || agentEditOldIsOnlySpace nextText || path.isEmpty ||
        !agentEditOldReadyForUpto p.value then (false, forcer)
    else
      match agentReadFileBytes io path file with
      | .error _ => (false, forcer)
      | .ok data =>
        match agentFindUnique data p.value "old prefix" with
        | .error _ => (false, forcer)
        | .ok _ => (true, { forcer with done := true })

/-! ## What an edit has to do -/

/-- A call replaces the bytes `start` up to `stop` of the file by `newText`. -/
structure Edits (call : AgentToolCall) (io : FileIo) (file : Bytes) (start stop : Nat) (newText : Bytes) : Prop where
  path : (agentToolArgValue call (utf8 "path")).getD [] ≠ []
  newText : agentToolArgValue call (utf8 "new") = some newText
  readable : io.readError = none ∧ file.length ≤ fileMaxBytes
  selects : Selects file ((agentToolArgValue call (utf8 "old")).getD []) start stop

/-- The file becomes the splice, or stays as it is. -/
def EditExact (call : AgentToolCall) (io : FileIo) (file : Bytes) : Prop :=
  (∀ start stop newText, Edits call io file start stop newText → io.write = .none →
    agentToolEdit call io file = (none, splice file start stop newText)) ∧
  ((∀ start stop newText, Edits call io file start stop newText → io.write ≠ .none) → (agentToolEdit call io file).2 = file)

/-- What the check accepted of a file is edited, once the rest of the call is there and writing works. -/
def PreflightAgrees (call : AgentToolCall) (io : FileIo) (file : Bytes) : Prop :=
  (agentToolArgValue call (utf8 "path")).getD [] ≠ [] → agentPreflightEditOld call io file = none →
    ∀ later newText, agentToolArgValue (call.add later) (utf8 "new") = some newText →
      (agentToolEdit (call.add later) { io with write := .none } file).1 = none

/-- The text before a marker written for the model is the head of the old text, and the edit finds it once. -/
def ForcerAgrees (forcer : AgentEditUptoForcer) (p : OpenParam) (nextText : Bytes) (io : FileIo) (file : Bytes) : Prop :=
  (agentEditUptoForcerShouldReplace forcer p nextText io file).1 = true →
    ∀ call rest, agentToolArgValue call (utf8 "old") = some (p.value ++ (marker ++ rest)) →
      (strstr marker (p.value ++ (marker ++ rest))).map Prod.fst = some p.value ∧
        ∃ i, agentFindUnique file p.value "old head" = .ok i

/-- A write fails with the file open and leaves something else in it. -/
def Spoils (call : AgentToolCall) (io : FileIo) (file : Bytes) : Prop :=
  ∃ start stop newText reason written, Edits call io file start stop newText ∧
    (io.write = .writing reason written ∨ io.write = .closing reason written) ∧
    (splice file start stop newText).take written ≠ file

theorem agentReadFileBytes_ok_iff {io : FileIo} {path file data : Bytes} :
    agentReadFileBytes io path file = .ok data ↔ (io.readError = none ∧ file.length ≤ fileMaxBytes) ∧ file = data := by
  rw [agentReadFileBytes]
  cases io.readError with
  | some fault => cases fault <;> exact iff_of_false (fun h => by cases h) fun h => by cases h.1.1
  | none =>
    dsimp only
    split
    · next hlong => exact iff_of_false (fun h => by cases h) fun h => absurd h.1.2 (Nat.not_le.mpr hlong)
    · next hshort => exact ⟨fun h => ⟨⟨rfl, Nat.le_of_not_lt hshort⟩, Except.ok.inj h⟩, fun h => congrArg _ h.2⟩

theorem Selects.old_ne_nil {data old : Bytes} {a b : Nat} (h : Selects data old a b) : old ≠ [] := by
  cases h with
  | text _ hne => exact hne
  | anchors hold _ _ hne =>
    rw [hold]
    exact List.append_ne_nil_of_left_ne_nil hne _

/-- An edit that goes through writes the splice. -/
theorem Edits.write {call : AgentToolCall} {io : FileIo} {file newText : Bytes} {a b : Nat} (h : Edits call io file a b newText) :
    let written := agentWriteFileBytes io ((agentToolArgValue call (utf8 "path")).getD []) file (splice file a b newText)
    (agentToolEdit call io file).2 = written.2 ∧ ((agentToolEdit call io file).1 = none ↔ written.1 = .ok ()) := by
  obtain ⟨span, hspan, rfl, rfl⟩ := agentEditFindOldSpan_ok_iff.mpr h.selects
  dsimp only
  rw [agentToolEdit, if_neg h.path, if_neg h.selects.old_ne_nil, h.newText]
  dsimp only
  rw [agentReadFileBytes_ok_iff.mpr ⟨h.readable, rfl⟩]
  dsimp only
  rw [hspan]
  dsimp only
  rcases hw : agentWriteFileBytes io ((agentToolArgValue call (utf8 "path")).getD []) file
    (splice file span.start (span.start + span.len) newText) with ⟨_ | _, after⟩
  · exact ⟨rfl, iff_of_false (fun h => by cases h) (fun h => by cases h)⟩
  · exact ⟨rfl, iff_of_true rfl rfl⟩

/-- Any other call leaves the file alone and reports an error. -/
theorem agentToolEdit_other {call : AgentToolCall} {io : FileIo} {file : Bytes}
    (h : ∀ a b newText, ¬Edits call io file a b newText) : (agentToolEdit call io file).2 = file := by
  rw [agentToolEdit]
  by_cases hpath : (agentToolArgValue call (utf8 "path")).getD [] = []
  · rw [if_pos hpath]
  rw [if_neg hpath]
  dsimp only
  by_cases hold : (agentToolArgValue call (utf8 "old")).getD [] = []
  · rw [if_pos hold]
  rw [if_neg hold]
  cases hnew : agentToolArgValue call (utf8 "new") with
  | none => rfl
  | some newText =>
    dsimp only
    cases hread : agentReadFileBytes io ((agentToolArgValue call (utf8 "path")).getD []) file with
    | error err => rfl
    | ok data =>
      dsimp only
      obtain ⟨hreadable, rfl⟩ := agentReadFileBytes_ok_iff.mp hread
      cases hspan : agentEditFindOldSpan file ((agentToolArgValue call (utf8 "old")).getD []) with
      | error err => rfl
      | ok span =>
        refine absurd ⟨hpath, hnew, hreadable, ?_⟩ (h span.start (span.start + span.len) newText)
        exact agentEditFindOldSpan_ok_iff.mp ⟨span, hspan, rfl, rfl⟩

theorem editExact_iff (call : AgentToolCall) (io : FileIo) (file : Bytes) : EditExact call io file ↔ ¬Spoils call io file := by
  constructor
  · rintro ⟨-, hkeep⟩ ⟨start, stop, newText, reason, written, hedit, hfault, hne⟩
    have hfile := hkeep fun _ _ _ _ hnone => by
      rcases hfault with hf | hf <;> rw [hf] at hnone <;> cases hnone
    rw [hedit.write.1] at hfile
    refine hne (.trans ?_ hfile)
    rcases hfault with hf | hf <;> rw [agentWriteFileBytes, hf]
  · intro hspoils
    refine ⟨fun start stop newText hedit hnone => ?_, fun hfails => ?_⟩
    · obtain ⟨hafter, hok⟩ := hedit.write
      rw [agentWriteFileBytes, hnone] at hafter hok
      exact Prod.ext (hok.mpr rfl) hafter
    · by_cases hedits : ∃ start stop newText, Edits call io file start stop newText
      · obtain ⟨start, stop, newText, hedit⟩ := hedits
        rw [hedit.write.1, agentWriteFileBytes]
        cases hf : io.write with
        | none => exact absurd hf (hfails _ _ _ hedit)
        | opening reason => rfl
        | writing reason written =>
          by_contra hne
          exact hspoils ⟨start, stop, newText, reason, written, hedit, .inl hf, hne⟩
        | closing reason written =>
          by_contra hne
          exact hspoils ⟨start, stop, newText, reason, written, hedit, .inr hf, hne⟩
      · exact agentToolEdit_other fun start stop newText hedit => hedits ⟨start, stop, newText, hedit⟩

/-- The check looks for the same span in the same file. -/
theorem preflight_agrees (call : AgentToolCall) (io : FileIo) (file : Bytes) : PreflightAgrees call io file := by
  intro hpath hok later newText hnew
  rw [agentPreflightEditOld, if_neg hpath] at hok
  dsimp only at hok
  by_cases hold : (agentToolArgValue call (utf8 "old")).getD [] = []
  · rw [if_pos hold] at hok
    cases hok
  · rw [if_neg hold] at hok
    cases hread : agentReadFileBytes io ((agentToolArgValue call (utf8 "path")).getD []) file with
    | error err =>
      rw [hread] at hok
      cases hok
    | ok data =>
      obtain ⟨hreadable, rfl⟩ := agentReadFileBytes_ok_iff.mp hread
      rw [hread] at hok
      cases hspan : agentEditFindOldSpan file ((agentToolArgValue call (utf8 "old")).getD []) with
      | error err =>
        dsimp only at hok
        rw [hspan] at hok
        cases hok
      | ok span =>
        have hkeeps : ∀ {name : Bytes}, (agentToolArgValue call name).getD [] ≠ [] →
            (agentToolArgValue (call.add later) name).getD [] = (agentToolArgValue call name).getD [] := by
          intro name hne
          cases hv : agentToolArgValue call name with
          | none =>
            rw [hv] at hne
            exact absurd rfl hne
          | some value => rw [agentToolArgValue_add hv]
        have hedit : Edits (call.add later) { io with write := .none } file span.start (span.start + span.len) newText := by
          refine ⟨by rwa [hkeeps hpath], hnew, hreadable, ?_⟩
          rw [hkeeps hold]
          exact agentEditFindOldSpan_ok_iff.mp ⟨span, hspan, rfl, rfl⟩
        exact hedit.write.2.mpr rfl

/-- The forcer writes a marker after a text without one, found once in the file. -/
theorem forcer_replaces {forcer : AgentEditUptoForcer} {p : OpenParam} {nextText : Bytes} {io : FileIo} {file : Bytes}
    (h : (agentEditUptoForcerShouldReplace forcer p nextText io file).1 = true) :
    agentEditOldReadyForUpto p.value = true ∧ ∃ i, agentFindUnique file p.value "old prefix" = .ok i := by
  rw [agentEditUptoForcerShouldReplace] at h
  dsimp only at h
  generalize (if forcer.active then forcer else ⟨true, false⟩) = f at h
  generalize (!(p.inValue && p.current.name == utf8 "edit" && p.paramName == some (utf8 "old"))) = outside at h
  cases outside with
  | true => exact absurd h Bool.false_ne_true
  | false =>
    rw [if_neg (by decide)] at h
    cases hready : agentEditOldReadyForUpto p.value with
    | false =>
      rw [hready, Bool.not_false, Bool.or_true, if_pos rfl] at h
      exact absurd h Bool.false_ne_true
    | true =>
      rw [hready, Bool.not_true, Bool.or_false] at h
      refine ⟨rfl, ?_⟩
      cases hread : agentReadFileBytes io ((agentToolArgValue p.current (utf8 "path")).getD []) file with
      | error err =>
        rw [hread] at h
        dsimp only at h
        rw [ite_self] at h
        exact absurd h Bool.false_ne_true
      | ok data =>
        obtain ⟨-, rfl⟩ := agentReadFileBytes_ok_iff.mp hread
        cases hfind : agentFindUnique file p.value "old prefix" with
        | error err =>
          rw [hread] at h
          dsimp only at h
          rw [hfind] at h
          dsimp only at h
          rw [ite_self] at h
          exact absurd h Bool.false_ne_true
        | ok i => exact ⟨i, rfl⟩

/-- The forcer looks for what the edit will take as the head. -/
theorem forcer_agrees (forcer : AgentEditUptoForcer) (p : OpenParam) (nextText : Bytes) (io : FileIo) (file : Bytes) :
    ForcerAgrees forcer p nextText io file := by
  intro hforced call rest hold
  obtain ⟨hready, i, hfind⟩ := forcer_replaces hforced
  have hnul : (0 : UInt8) ∉ p.value := by
    obtain ⟨arg, -, hvalue⟩ := Option.map_eq_some_iff.mp hold
    intro h0
    have := cstr_no_nul arg.value
    rw [hvalue] at this
    exact this (List.mem_append_left _ h0)
  have hmarker : ¬marker <:+: p.value := by
    rw [agentEditOldReadyForUpto, cstr_of_no_nul hnul] at hready
    rw [← strstr_marker_none, ← Option.not_isSome_iff_eq_none]
    intro h
    rw [h, Bool.or_true, Bool.not_true, Bool.false_and, Bool.false_and] at hready
    exact Bool.false_ne_true hready
  refine ⟨?_, i, agentFindUnique_ok_iff.mpr (agentFindUnique_ok_iff.mp hfind)⟩
  rw [strstr_marker _ hmarker]
  rfl

/-- An edit replaces exactly the one span that its old text selects or leaves the file as it is, what was
    checked before agrees with it, unless a write fails after the file was opened. -/
theorem edit_exact_iff (call : AgentToolCall) (io : FileIo) (file : Bytes) (forcer : AgentEditUptoForcer) (p : OpenParam)
    (nextText : Bytes) : (EditExact call io file ∧ PreflightAgrees call io file ∧ ForcerAgrees forcer p nextText io file) ↔
      ¬Spoils call io file :=
  ⟨fun h => (editExact_iff call io file).mp h.1, fun h =>
    ⟨(editExact_iff call io file).mpr h, preflight_agrees call io file, forcer_agrees forcer p nextText io file⟩⟩

/-- Replacing `a` by `b` in a file of one letter, on a full disk: the file is empty afterwards. -/
theorem edit_exact_fails : ¬EditExact
    ⟨utf8 "edit", [⟨utf8 "path", utf8 "f"⟩, ⟨utf8 "old", utf8 "a"⟩, ⟨utf8 "new", utf8 "b"⟩]⟩
    ⟨none, .writing (utf8 "No space left on device") 0⟩ (utf8 "a") := by
  rintro ⟨-, hkeep⟩
  have hempty := hkeep fun _ _ _ _ h => by cases h
  revert hempty
  decide

end Ds4.Agent
