import Ds4.Dist.RoutePlan

/- The route a coordinator plans and the blob it sends with it: records of variable
   length, one for each hop, then where the result goes. Three parsers of the workers
   walk the blob, each with its own checks.

   What is proved:
     1. `getEntryFrom_records`, `skipEntries_records`, `validateEntries_records` — each
        parser's loop takes the records of a built blob one by one.
     2. `survives_records` — each parser reads a built blob to its end, as it was built.
     3. `route_plan_exact` — a plan is made exactly when there is a route, is one,
        and survives the wire.

   Correspondence (C ↔ Lean):
     `dist_route_to_wire`, `dist_route_from_wire`  ↔ `RouteFixed.toWire`, `readFixed`
     `dist_route_plan_append_blob`, `dist_route_plan_append_return_upstream` ↔ `appendBlob`, `appendReturnUpstream`
     `dist_coordinator_build_route_plan`           ↔ `buildRoutePlan`
     `dist_route_get_entry`, `dist_route_get_return_target`, `dist_route_validate_blob`
   An entry's connection, which is not on the wire, is left out. -/
namespace Ds4.Dist.Route
open Ds4 Bytes

/-! ## The wire -/

def htonl (v : Nat) : Bytes := [UInt8.ofNat (v / 16777216), UInt8.ofNat (v / 65536), UInt8.ofNat (v / 256), UInt8.ofNat v]

def ntohl (b : Bytes) : Nat :=
  (b.getD 0 0).toNat * 16777216 + (b.getD 1 0).toNat * 65536 + (b.getD 2 0).toNat * 256 + (b.getD 3 0).toNat

structure RouteFixed where
  hostLen : Nat
  port : Nat
  layerStart : Nat
  layerEnd : Nat
  flags : Nat

structure RouteEntry where
  host : Bytes
  port : Nat
  layerStart : Nat
  layerEnd : Nat
  flags : Nat
  deriving DecidableEq

structure RouteReturn where
  kind : Nat
  port : Nat
  host : Bytes
  deriving DecidableEq

/-- `sizeof(ds4_dist_route_fixed)`, `sizeof(ds4_dist_route_return_fixed)`. -/
def routeFixedBytes : Nat := 20
def routeReturnBytes : Nat := 12

/-- `DS4_DIST_ROUTE_F_OUTPUT_LOGITS`, `DS4_DIST_ROUTE_RETURN_UPSTREAM`. -/
def routeOutputLogits : Nat := 1
def routeReturnUpstream : Nat := 1

def RouteFixed.toWire (r : RouteFixed) : Bytes :=
  htonl r.hostLen ++ (htonl r.port ++ (htonl r.layerStart ++ (htonl r.layerEnd ++ htonl r.flags)))

/-- A record's fixed part and what is behind it. -/
def readFixed (p : Bytes) : Option (RouteFixed × Bytes) :=
  if p.length < routeFixedBytes then none
  else some (⟨ntohl p, ntohl (p.drop 4), ntohl (p.drop 8), ntohl (p.drop 12), ntohl (p.drop 16)⟩, p.drop routeFixedBytes)

def RouteEntry.fixed (e : RouteEntry) : RouteFixed := ⟨e.host.length, e.port, e.layerStart, e.layerEnd, e.flags⟩

def RouteEntry.record (e : RouteEntry) : Bytes := e.fixed.toWire ++ e.host

def returnRecord : Bytes := htonl routeReturnUpstream ++ (htonl 0 ++ htonl 0)

/-! ## The plan -/

structure RoutePlan where
  entry : List RouteEntry
  blob : Bytes
  generation : Nat

def appendBlob (blob : Bytes) (e : RouteEntry) : Except String Bytes :=
  let hostLen := e.host.length
  if hostLen = 0 ∨ niMaxHost ≤ hostLen then .error "invalid route host"
  else
    let add := routeFixedBytes + hostLen
    if 4294967295 < add ∨ 4294967295 - add < blob.length then .error "route payload is too large"
    else .ok (blob ++ e.record)

def appendReturnUpstream (blob : Bytes) : Except String Bytes :=
  if 4294967295 - routeReturnBytes < blob.length then .error "route payload is too large" else .ok (blob ++ returnRecord)

def routeEntry (w : Worker) : RouteEntry :=
  { host := w.peerHost.bytes, port := w.listenPort, layerStart := w.layerStart, layerEnd := w.layerEnd
    flags := if w.hasOutput then routeOutputLogits else 0 }

/-- The records of a path's workers. -/
def appendPath : Bytes → List Worker → Except String Bytes
  | blob, [] => .ok blob
  | blob, w :: path => do
    let blob ← appendBlob blob (routeEntry w)
    appendPath blob path

def buildRoutePlan (q : QSort) (st : Coordinator) : Except String RoutePlan :=
  let workers := q.sort st.workers
  let last := st.nLayers - 1
  if st.localStart ≠ 0 then .error "coordinator route does not start at layer 0"
  else if st.localEnd = last ∧ (st.localHasOutput || st.localCanOutputHead) then .ok ⟨[], [], st.generation⟩
  else
    let next := st.localEnd + 1
    let r := searchWorkers st workers last st.nLayers next [] next
    if !r.ok then .error ("distributed route incomplete: missing layer " ++ toString r.missing)
    else do
      let blob ← appendPath [] r.path
      let blob ← if r.path.length ≠ 0 then appendReturnUpstream blob else pure blob
      return ⟨r.path.map routeEntry, blob, st.generation⟩

/-! ## The parsers -/

/-- What a parser has to say of a record's host. -/
def hostOk (strict : Bool) (fx : RouteFixed) (rest : Bytes) : Except String Unit :=
  if strict && (decide (fx.hostLen = 0) || decide (niMaxHost ≤ fx.hostLen)) || decide (rest.length < fx.hostLen) then
    .error "invalid route host length"
  else if (0 : UInt8) ∈ rest.take fx.hostLen then .error "route host contains NUL bytes"
  else .ok ()

def getEntryFrom : Nat → Nat → Bytes → Except String RouteEntry
  | 0, _, p => .error (if p ≠ [] then "route payload has trailing bytes" else "route entry not found")
  | count + 1, target, p =>
    match readFixed p with
    | none => .error "truncated route entry"
    | some (fx, p) => do
      hostOk true fx p
      match target with
      | 0 => return ⟨p.take fx.hostLen, fx.port, fx.layerStart, fx.layerEnd, fx.flags⟩
      | target + 1 => getEntryFrom count target (p.drop fx.hostLen)

def getEntry (blob : Bytes) (count target : Nat) : Except String RouteEntry :=
  if count ≤ target then .error "invalid route entry index" else getEntryFrom count target blob

/-- What stands behind the records; the last check of the target is the caller's. -/
def readReturn (p : Bytes) : Except String (RouteReturn × Bytes) :=
  if p.length < routeReturnBytes then .error "route payload missing final destination"
  else
    let hostLen := ntohl (p.drop 4)
    let rest := p.drop routeReturnBytes
    if niMaxHost ≤ hostLen ∨ rest.length < hostLen then .error "invalid route final destination host length"
    else if (0 : UInt8) ∈ rest.take hostLen then .error "route final destination host contains NUL bytes"
    else .ok (⟨ntohl p, ntohl (p.drop 8), rest.take hostLen⟩, rest.drop hostLen)

def skipEntries : Nat → Bytes → Except String Bytes
  | 0, p => .ok p
  | count + 1, p =>
    match readFixed p with
    | none => .error "truncated route entry"
    | some (fx, p) => do
      hostOk false fx p
      skipEntries count (p.drop fx.hostLen)

def getReturnTarget (blob : Bytes) (count : Nat) : Except String RouteReturn :=
  if blob = [] ∨ count = 0 then .error "invalid route final destination"
  else do
    let p ← skipEntries count blob
    let (ret, p) ← readReturn p
    if p ≠ [] then .error "route payload has trailing bytes" else .ok ret

/-- The records of a blob to validate, behind one that ends at `prevEnd`, if there is one. -/
def validateEntries (nLayers : Nat) : Nat → Option Nat → Bytes → Except String Bytes
  | 0, _, p => .ok p
  | count + 1, prevEnd, p =>
    match readFixed p with
    | none => .error "truncated route entry"
    | some (fx, p) => do
      hostOk true fx p
      if fx.port = 0 ∨ 65535 < fx.port then .error "invalid route port"
      else if nLayers ≤ fx.layerStart ∨ nLayers ≤ fx.layerEnd ∨ fx.layerEnd < fx.layerStart then .error "invalid route layer range"
      else if fx.flags / 2 ≠ 0 then .error "invalid route flags"
      else if fx.flags % 2 ≠ 0 ∧ fx.layerEnd + 1 ≠ nLayers then .error "route logits require final layer"
      else if prevEnd.any fun e => decide (fx.layerStart ≠ e + 1) then .error "route layer ranges are not contiguous"
      else validateEntries nLayers count (some fx.layerEnd) (p.drop fx.hostLen)

def validateBlob (blob : Bytes) (count nLayers : Nat) : Except String Unit :=
  if count = 0 then if blob = [] then .ok () else .error "route payload has entries without a route count"
  else if blob = [] then .error "route payload is missing"
  else do
    let p ← validateEntries nLayers count none blob
    let (ret, p) ← readReturn p
    if ret.kind ≠ routeReturnUpstream then .error "unsupported route final destination"
    else if ret.host.length ≠ 0 ∨ ret.port ≠ 0 then .error "invalid upstream route final destination"
    else if p ≠ [] then .error "route payload has trailing bytes"
    else .ok ()

/-! ## A record is read as it was written -/

@[simp] theorem length_htonl (v : Nat) : (htonl v).length = 4 := rfl

theorem ntohl_htonl {v : Nat} (hv : v < 4294967296) (r : Bytes) : ntohl (htonl v ++ r) = v := by
  simp only [ntohl, htonl, List.cons_append, List.getD_cons_zero, List.getD_cons_succ, UInt8.toNat_ofNat']
  omega

theorem length_toWire (r : RouteFixed) : r.toWire.length = routeFixedBytes := rfl

/-- Every field of the record fits its word. -/
structure RouteEntry.Fits (e : RouteEntry) : Prop where
  host_pos : e.host ≠ []
  host_lt : e.host.length < niMaxHost
  host_nul : (0 : UInt8) ∉ e.host
  port : e.port < 4294967296
  layerStart : e.layerStart < 4294967296
  layerEnd : e.layerEnd < 4294967296
  flags : e.flags < 4294967296

theorem readFixed_record {e : RouteEntry} (h : e.Fits) (rest : Bytes) :
    readFixed (e.record ++ rest) = some (e.fixed, e.host ++ rest) := by
  have hhost : e.host.length < 4294967296 := by
    have := h.host_lt
    rw [niMaxHost] at this
    omega
  have hlen : ¬(e.record ++ rest).length < routeFixedBytes := by
    rw [RouteEntry.record, List.length_append, List.length_append, length_toWire]
    omega
  have hword : ∀ {v : Nat} (r : Bytes), v < 4294967296 → ntohl (UInt8.ofNat (v / 16777216) :: UInt8.ofNat (v / 65536) ::
      UInt8.ofNat (v / 256) :: UInt8.ofNat v :: r) = v := fun r hv => ntohl_htonl hv r
  rw [readFixed, if_neg hlen, RouteEntry.record, List.append_assoc, List.drop_left' (length_toWire _)]
  simp only [RouteFixed.toWire, htonl, List.cons_append, List.nil_append, List.drop_succ_cons, List.drop_zero]
  rw [hword (v := e.fixed.hostLen) _ hhost, hword (v := e.fixed.port) _ h.port, hword (v := e.fixed.layerStart) _ h.layerStart,
    hword (v := e.fixed.layerEnd) _ h.layerEnd, hword (v := e.fixed.flags) _ h.flags]

/-- The host of a written record passes either check. -/
theorem hostOk_record {e : RouteEntry} (h : e.Fits) (strict : Bool) (rest : Bytes) :
    hostOk strict e.fixed (e.host ++ rest) = .ok () := by
  have hlt := h.host_lt
  have hpos := List.length_pos_iff_ne_nil.mpr h.host_pos
  have hshort : ¬e.host.length + rest.length < e.host.length := by omega
  have h0 : e.host.length ≠ 0 := by omega
  rw [hostOk, RouteEntry.fixed]
  dsimp only
  rw [List.take_left', if_neg, if_neg h.host_nul]
  · simp [hshort, h.host_pos, Nat.not_le.mpr hlt]
  · rfl

theorem drop_host (e : RouteEntry) (rest : Bytes) : (e.host ++ rest).drop e.fixed.hostLen = rest := List.drop_left' rfl

theorem take_host (e : RouteEntry) (rest : Bytes) : (e.host ++ rest).take e.fixed.hostLen = e.host := List.take_left' rfl

theorem readReturn_record : readReturn returnRecord = .ok (⟨routeReturnUpstream, 0, []⟩, []) := by decide +kernel

/-! ## The blob of a path -/

def records (es : List RouteEntry) : Bytes := es.flatMap RouteEntry.record

theorem getEntryFrom_records : ∀ {es : List RouteEntry} {i : Nat} {e : RouteEntry} (rest : Bytes), (∀ x ∈ es, x.Fits) →
    es[i]? = some e → getEntryFrom es.length i (records es ++ rest) = .ok e := by
  intro es
  induction es with
  | nil =>
    intro i e rest _ hi
    simp at hi
  | cons x es ih =>
    intro i e rest hfit hi
    have hx := hfit x List.mem_cons_self
    rw [List.length_cons, getEntryFrom, records, List.flatMap_cons, List.append_assoc, readFixed_record hx]
    dsimp only
    rw [hostOk_record hx]
    cases i with
    | zero =>
      obtain rfl := Option.some.inj hi
      rw [take_host]
      rfl
    | succ i =>
      rw [drop_host]
      exact ih rest (fun y hy => hfit y (List.mem_cons_of_mem _ hy)) hi

theorem skipEntries_records : ∀ {es : List RouteEntry} (rest : Bytes), (∀ x ∈ es, x.Fits) →
    skipEntries es.length (records es ++ rest) = .ok rest := by
  intro es
  induction es with
  | nil =>
    intro rest _
    rfl
  | cons x es ih =>
    intro rest hfit
    have hx := hfit x List.mem_cons_self
    rw [List.length_cons, skipEntries, records, List.flatMap_cons, List.append_assoc, readFixed_record hx]
    dsimp only
    rw [hostOk_record hx, drop_host]
    exact ih rest fun y hy => hfit y (List.mem_cons_of_mem _ hy)

/-- What the validation asks of entries, behind one that ends at `prevEnd`. -/
def Contiguous (n : Nat) : Option Nat → List RouteEntry → Prop
  | _, [] => True
  | prevEnd, e :: es => (0 < e.port ∧ e.port ≤ 65535 ∧ e.layerStart ≤ e.layerEnd ∧ e.layerEnd < n ∧ e.flags ≤ 1 ∧
      (e.flags = 1 → e.layerEnd + 1 = n) ∧ ∀ p ∈ prevEnd, e.layerStart = p + 1) ∧ Contiguous n (some e.layerEnd) es

theorem validateEntries_records {n : Nat} : ∀ {es : List RouteEntry} {prevEnd : Option Nat} (rest : Bytes), (∀ x ∈ es, x.Fits) →
    Contiguous n prevEnd es → validateEntries n es.length prevEnd (records es ++ rest) = .ok rest := by
  intro es
  induction es with
  | nil =>
    intro prevEnd rest _ _
    rfl
  | cons x es ih =>
    intro prevEnd rest hfit hcont
    have hx := hfit x List.mem_cons_self
    obtain ⟨⟨hpos, hport, hle, hlt, hflags, hlogits, hprev⟩, hrest⟩ := hcont
    rw [List.length_cons, validateEntries, records, List.flatMap_cons, List.append_assoc, readFixed_record hx]
    dsimp only
    rw [hostOk_record hx, drop_host]
    have hnone : ¬(prevEnd.any fun e => decide (x.fixed.layerStart ≠ e + 1)) = true := by
      cases prevEnd with
      | none => simp
      | some p => simp [RouteEntry.fixed, hprev p rfl]
    show (if x.port = 0 ∨ 65535 < x.port then _ else _) = _
    rw [if_neg (by omega)]
    show (if n ≤ x.layerStart ∨ n ≤ x.layerEnd ∨ x.layerEnd < x.layerStart then _ else _) = _
    rw [if_neg (by omega)]
    show (if x.flags / 2 ≠ 0 then _ else _) = _
    rw [if_neg (by omega)]
    show (if x.flags % 2 ≠ 0 ∧ x.layerEnd + 1 ≠ n then _ else _) = _
    rw [if_neg (by omega), if_neg hnone]
    exact ih rest (fun y hy => hfit y (List.mem_cons_of_mem _ hy)) hrest

/-! ## The plan of a route -/

section
variable {n : Nat}

theorem routeEntry_fits {w : Worker} (hw : w.Ok n) (hn : n ≤ maxLayer) : (routeEntry w).Fits := by
  have hlt := hw.end_lt
  have hle := hw.start_le
  have hport := hw.port_le
  rw [maxLayer] at hn
  constructor
  · exact w.peerHost.ne_nil
  · exact w.peerHost.fits
  · exact w.peerHost.no_nul
  · exact Nat.lt_of_le_of_lt hport (by decide)
  · exact Nat.lt_of_le_of_lt (show w.layerStart ≤ 61 by omega) (by decide)
  · exact Nat.lt_of_le_of_lt (show w.layerEnd ≤ 61 by omega) (by decide)
  · dsimp only [routeEntry]
    split_ifs <;> decide

/-- The blob of a path grows by its records while they fit 32 bits. -/
theorem appendPath_eq : ∀ (path : List Worker) (blob : Bytes), (∀ w ∈ path, (routeEntry w).Fits) →
    blob.length + path.length * (routeFixedBytes + niMaxHost) ≤ 4294967295 →
    appendPath blob path = .ok (blob ++ records (path.map routeEntry)) := by
  intro path
  induction path with
  | nil =>
    intro blob _ _
    rw [appendPath, List.map_nil, records, List.flatMap_nil, List.append_nil]
  | cons w path ih =>
    intro blob hfit hlen
    have hw := hfit w List.mem_cons_self
    have hpos := List.length_pos_iff_ne_nil.mpr hw.host_pos
    have hlt := hw.host_lt
    rw [List.length_cons, Nat.succ_mul, routeFixedBytes, niMaxHost] at hlen
    rw [niMaxHost] at hlt
    have hrecord : (routeEntry w).record.length = 20 + (routeEntry w).host.length := by
      rw [RouteEntry.record, List.length_append, length_toWire, routeFixedBytes]
    have happend : appendBlob blob (routeEntry w) = .ok (blob ++ (routeEntry w).record) := by
      rw [appendBlob]
      dsimp only
      rw [if_neg (by rw [niMaxHost]; omega), if_neg (by rw [routeFixedBytes]; omega)]
    rw [appendPath, happend]
    refine (ih (blob ++ (routeEntry w).record) (fun v hv => hfit v (List.mem_cons_of_mem _ hv)) ?_).trans ?_
    · rw [List.length_append, hrecord, routeFixedBytes, niMaxHost]
      omega
    · rw [List.map_cons, records, records, List.flatMap_cons, List.append_assoc]

theorem length_records_le : ∀ {es : List RouteEntry}, (∀ e ∈ es, e.Fits) →
    (records es).length ≤ es.length * (routeFixedBytes + niMaxHost) := by
  intro es
  induction es with
  | nil =>
    intro _
    exact Nat.zero_le _
  | cons e es ih =>
    intro hfit
    have he := (hfit e List.mem_cons_self).host_lt
    have hrest := ih fun x hx => hfit x (List.mem_cons_of_mem _ hx)
    rw [records] at hrest
    rw [records, List.flatMap_cons, List.length_append, RouteEntry.record, List.length_append, length_toWire, List.length_cons,
      Nat.succ_mul]
    omega

theorem length_le_layers {path : List Worker} (h : ∀ w ∈ path, w.Ok n) : path.length ≤ (path.flatMap Worker.layers).length := by
  induction path with
  | nil => exact Nat.le_refl _
  | cons w path ih =>
    have hw := (h w List.mem_cons_self).start_le
    have hrest := ih fun v hv => h v (List.mem_cons_of_mem _ hv)
    rw [List.flatMap_cons, List.length_append, Worker.layers, List.length_range', List.length_cons]
    omega

/-- The entries of a chain are what the validation asks for, and only the last may give logits. -/
theorem chain_contiguous {st : Coordinator} {next : Nat} {path : List Worker} (h : Chain st (n - 1) next path)
    (hok : ∀ w ∈ path, w.Ok n) (prevEnd : Option Nat) (hprev : ∀ p ∈ prevEnd, next = p + 1) :
    Contiguous n prevEnd (path.map routeEntry) ∧ ∀ e ∈ (path.map routeEntry).dropLast, e.flags = 0 := by
  have hentry : ∀ {w : Worker} {prevEnd : Option Nat}, w.Ok n → (∀ p ∈ prevEnd, w.layerStart = p + 1) →
      0 < (routeEntry w).port ∧ (routeEntry w).port ≤ 65535 ∧ (routeEntry w).layerStart ≤ (routeEntry w).layerEnd ∧
      (routeEntry w).layerEnd < n ∧ (routeEntry w).flags ≤ 1 ∧ ((routeEntry w).flags = 1 → (routeEntry w).layerEnd + 1 = n) ∧
      ∀ p ∈ prevEnd, (routeEntry w).layerStart = p + 1 := by
    intro w prevEnd hw hprev
    refine ⟨hw.port_pos, hw.port_le, hw.start_le, hw.end_lt, ?_, fun hf => hw.output ?_, hprev⟩
    · dsimp only [routeEntry]
      split_ifs <;> decide
    · by_contra ho
      simp [routeEntry, ho] at hf
  induction h generalizing prevEnd with
  | @last w hc hend => exact ⟨⟨hentry (hok w List.mem_cons_self) hprev, trivial⟩, by simp⟩
  | @hop w path hc hend rest ih =>
    have hw := hok w List.mem_cons_self
    obtain ⟨hcont, hflags⟩ := ih (fun v hv => hok v (List.mem_cons_of_mem _ hv)) (some w.layerEnd) fun p hp => by
      obtain rfl := Option.some.inj hp
      rfl
    refine ⟨⟨hentry hw hprev, hcont⟩, fun e he => ?_⟩
    obtain ⟨v, q, rfl⟩ := List.exists_cons_of_ne_nil (chain_ne_nil rest)
    rw [List.map_cons, List.map_cons, List.dropLast_cons_cons] at he
    rcases List.mem_cons.mp he with rfl | he
    · have : w.hasOutput = false := by
        by_contra ho
        have := hw.output (by simpa using ho)
        omega
      simp [routeEntry, this]
    · exact hflags e he

end

/-- A blob its receivers read as it was built. -/
structure Survives (n : Nat) (plan : RoutePlan) : Prop where
  validate : validateBlob plan.blob plan.entry.length n = .ok ()
  entries : ∀ i e, plan.entry[i]? = some e → getEntry plan.blob plan.entry.length i = .ok e
  target : plan.entry ≠ [] → getReturnTarget plan.blob plan.entry.length = .ok ⟨routeReturnUpstream, 0, []⟩

theorem survives_records {n : Nat} {es : List RouteEntry} (hne : es ≠ []) (hfit : ∀ e ∈ es, e.Fits) (hcont : Contiguous n none es)
    (generation : Nat) : Survives n ⟨es, records es ++ returnRecord, generation⟩ := by
  have hblob : records es ++ returnRecord ≠ [] := List.append_ne_nil_of_right_ne_nil _ (by decide)
  have hcount : es.length ≠ 0 := fun h => hne (List.length_eq_zero_iff.mp h)
  constructor
  · rw [validateBlob, if_neg hcount, if_neg hblob]
    dsimp only
    rw [validateEntries_records returnRecord hfit hcont]
    simp only [bind, Except.bind, readReturn_record]
    rfl
  · intro i e hi
    have hlt : ¬es.length ≤ i := Nat.not_le.mpr (List.getElem?_eq_some_iff.mp hi).1
    rw [getEntry, if_neg hlt]
    exact getEntryFrom_records returnRecord hfit hi
  · intro _
    rw [getReturnTarget, if_neg (by simp [hblob, hne])]
    dsimp only
    rw [skipEntries_records returnRecord hfit]
    simp only [bind, Except.bind, readReturn_record]
    rfl

section
variable {st : Coordinator} (q : QSort)

/-- What `buildRoutePlan` gives, from the search's answer. -/
theorem buildRoutePlan_eq (hok : ∀ w ∈ st.workers, w.Ok st.nLayers) (hstart : st.localStart = 0) (hend : st.localEnd < st.nLayers)
    (hmax : st.nLayers ≤ maxLayer) :
    (∃ path plan, IsRoute st path ∧ buildRoutePlan q st = .ok plan ∧ plan.entry = path.map routeEntry ∧
      (∀ e ∈ plan.entry.dropLast, e.flags = 0) ∧ Survives st.nLayers plan) ∨
    (¬∃ path, IsRoute st path) ∧ ∃ err, buildRoutePlan q st = .error err := by
  have hmem : ∀ w, w ∈ q.sort st.workers ↔ w ∈ st.workers := fun w => (q.perm st.workers).mem_iff
  have hlayers : st.nLayers - (st.localEnd + 1) = st.nLayers - 1 - st.localEnd := by omega
  rw [buildRoutePlan]
  dsimp only
  rw [if_neg (not_not.mpr hstart)]
  by_cases hlocal : st.localEnd = st.nLayers - 1 ∧ (st.localHasOutput || st.localCanOutputHead) = true
  · -- the coordinator has all layers, and an output head
    rw [if_pos hlocal]
    refine Or.inl ⟨[], _, ⟨by simp, ?_, by simp, by simpa using hlocal.2⟩, rfl, rfl, by simp, ⟨rfl, by simp, by simp⟩⟩
    rw [hlocal.1, Nat.sub_self]
    rfl
  rw [if_neg hlocal]
  -- a route is a chain of the workers behind the coordinator's layers
  have hroute : ∀ path, IsRoute st path ↔ (∀ w ∈ path, w ∈ st.workers) ∧ Chain st (st.nLayers - 1) (st.localEnd + 1) path := by
    intro path
    constructor
    · intro h
      refine ⟨h.registered, ?_⟩
      have hne : path ≠ [] := by
        rintro rfl
        have hlen := congrArg List.length h.layers
        rw [List.flatMap_nil, List.length_nil, List.length_range'] at hlen
        exact hlocal ⟨by omega, by simpa using h.output⟩
      refine (chain_iff (by omega) path _ hne fun w hw => hok w (h.registered w hw)).mpr ⟨?_, h.hidden, ?_⟩
      · rw [hlayers]
        exact h.layers
      · intro w hw
        have hout := h.output
        rw [Option.mem_def.mp hw] at hout
        exact hout
    · rintro ⟨hreg, hchain⟩
      obtain ⟨h1, h2, h3⟩ := (chain_iff (by omega) path _ (chain_ne_nil hchain) fun w hw => hok w (hreg w hw)).mp hchain
      refine ⟨hreg, ?_, h2, ?_⟩
      · rw [← hlayers]
        exact h1
      · cases hl : path.getLast? with
        | none => exact absurd (List.getLast?_eq_none_iff.mp hl) (chain_ne_nil hchain)
        | some w => exact h3 w hl
  have hsorted : (q.sort st.workers).Pairwise fun a b => a.layerStart ≤ b.layerStart :=
    (q.sorted st.workers).imp start_le_of_cmp
  rcases @searchWorkers_decides st _ (st.nLayers - 1) hsorted (fun w hw => (hok w ((hmem w).mp hw)).start_le)
      (fun w hw => by
        have h1 := (hok w ((hmem w).mp hw)).start_le
        have h2 := (hok w ((hmem w).mp hw)).end_lt
        omega)
      st.nLayers (st.localEnd + 1) (by omega) [] (st.localEnd + 1) with ⟨hfound, path, hpath, hin, hchain⟩ | ⟨hfound, -, hnone⟩
  · have hreg : ∀ w ∈ path, w ∈ st.workers := fun w hw => (hmem w).mp (hin w hw)
    have hokp : ∀ w ∈ path, w.Ok st.nLayers := fun w hw => hok w (hreg w hw)
    have hfit : ∀ w ∈ path, (routeEntry w).Fits := fun w hw => routeEntry_fits (hokp w hw) hmax
    obtain ⟨hcont, hflags⟩ := chain_contiguous hchain hokp none (by simp)
    have hlen : path.length ≤ st.nLayers := by
      have h1 := length_le_layers hokp
      rw [((hroute path).mpr ⟨hreg, hchain⟩).layers, List.length_range'] at h1
      omega
    rw [maxLayer] at hmax
    have happend := appendPath_eq path [] hfit (by
      rw [List.length_nil, routeFixedBytes, niMaxHost]
      omega)
    rw [hfound, hpath, List.nil_append, happend, List.nil_append]
    have hfits : ∀ e ∈ path.map routeEntry, e.Fits := fun e he => by
      obtain ⟨w, hw, rfl⟩ := List.mem_map.mp he
      exact hfit w hw
    have hsize := length_records_le hfits
    rw [List.length_map] at hsize
    have hreturn : appendReturnUpstream (records (path.map routeEntry)) = .ok (records (path.map routeEntry) ++ returnRecord) := by
      rw [appendReturnUpstream, if_neg]
      rw [routeFixedBytes, niMaxHost] at hsize
      rw [routeReturnBytes]
      omega
    have hne : path.length ≠ 0 := fun h => chain_ne_nil hchain (List.length_eq_zero_iff.mp h)
    refine Or.inl ⟨path, ⟨path.map routeEntry, records (path.map routeEntry) ++ returnRecord, st.generation⟩,
      (hroute path).mpr ⟨hreg, hchain⟩, ?_, rfl, hflags, survives_records ?_ hfits hcont st.generation⟩
    · simp only [Bool.not_true, Bool.false_eq_true, if_false, bind, Except.bind, if_pos hne, hreturn]
      rfl
    · simpa using chain_ne_nil hchain
  · refine Or.inr ⟨?_, _, by rw [hfound]; rfl⟩
    rintro ⟨path, hpath⟩
    obtain ⟨hreg, hchain⟩ := (hroute path).mp hpath
    exact hnone path trivial (fun w hw => (hmem w).mpr (hreg w hw)) hchain

/-- Planning succeeds exactly when registered workers make a route; what it returns is such a route, of which only
    the last hop gives logits, and its blob is read by each hop as it was built; the search ends, and writes no
    more entries of its path than there are workers. -/
theorem route_plan_exact (st : Coordinator) (peers : List (Host × Hello)) (hnew : st.workers = []) (hstart : st.localStart = 0)
    (hend : st.localEnd < st.nLayers) (hmax : st.nLayers ≤ maxLayer) :
    ((∃ plan, buildRoutePlan q (registerAll st peers) = .ok plan) ↔ ∃ path, IsRoute (registerAll st peers) path) ∧
    (∀ plan, buildRoutePlan q (registerAll st peers) = .ok plan →
      (∃ path, IsRoute (registerAll st peers) path ∧ plan.entry = path.map routeEntry) ∧
      (∀ e ∈ plan.entry.dropLast, e.flags = 0) ∧ Survives st.nLayers plan) ∧
    ∀ missing depth, st.nLayers ≤ depth →
      let workers := q.sort (registerAll st peers).workers
      let found := searchWorkers (registerAll st peers) workers (st.nLayers - 1) depth (st.localEnd + 1) [] missing
      found = searchWorkers (registerAll st peers) workers (st.nLayers - 1) st.nLayers (st.localEnd + 1) [] missing ∧
      found.peak ≤ workers.length := by
  obtain ⟨hn, hs, he, hok⟩ := @registered_ok st peers (by simp [hnew])
  have hplan := @buildRoutePlan_eq (registerAll st peers) q (by rw [hn]; exact hok) (hs.trans hstart)
    (by rw [he, hn]; exact hend) (by rw [hn]; exact hmax)
  rw [hn] at hplan
  refine ⟨?_, ?_, ?_⟩
  · rcases hplan with ⟨path, plan, hroute, hbuild, -⟩ | ⟨hnone, err, hbuild⟩
    · exact ⟨fun _ => ⟨path, hroute⟩, fun _ => ⟨plan, hbuild⟩⟩
    · refine ⟨fun ⟨plan, hplan⟩ => ?_, fun h => absurd h hnone⟩
      rw [hbuild] at hplan
      exact nomatch hplan
  · intro plan hplan'
    rcases hplan with ⟨path, plan', hroute, hbuild, hentry, hflags, hsurvives⟩ | ⟨-, err, hbuild⟩
    · rw [hbuild] at hplan'
      obtain rfl := Except.ok.inj hplan'
      exact ⟨⟨path, hroute, hentry⟩, hflags, hsurvives⟩
    · rw [hbuild] at hplan'
      exact nomatch hplan'
  · intro missing depth hdepth
    have hle : ∀ w ∈ q.sort (registerAll st peers).workers, w.layerStart ≤ w.layerEnd := fun w hw =>
      (hok w ((q.perm _).mem_iff.mp hw)).start_le
    exact ⟨searchWorkers_fuel hle depth st.nLayers (st.localEnd + 1) (by omega) (by omega) (by omega) [] missing,
      searchWorkers_peak hle depth (st.localEnd + 1) missing⟩

end

def bareCoordinator (nLayers : Nat) (canOutputHead : Bool) : Coordinator :=
  { modelId := 1, modelName := "m", nLayers := nLayers, localStart := 0, localEnd := 0, ctxSize := 0
    localHasOutput := false, localCanOutputHead := canOutputHead, generation := 0, workers := [] }

/-- A worker on a host of its own with one layer of three. -/
def peer (host : UInt8) (hhost : host ≠ 0) (layer hasOutput hasHidden listenPort : Nat) : Host × Hello :=
  (⟨[host], List.cons_ne_nil _ _, by simp [niMaxHost], by simpa using hhost.symm⟩,
   { modelId := 1, modelName := "m", quantBits := 2, layerStart := layer, layerEnd := layer, hasOutput := hasOutput
     hasHidden := hasHidden, ctxSize := 0, nLayers := 3, listenPort := listenPort })

theorem route_plan_three_layers :
    (∃ plan, buildRoutePlan .insertion (registerAll (bareCoordinator 3 false)
      [peer 65 (by decide) 2 1 0 5000, peer 66 (by decide) 1 0 1 5000]) = .ok plan) ∧
    ∃ path, IsRoute (registerAll (bareCoordinator 3 false)
      [peer 65 (by decide) 2 1 0 5000, peer 66 (by decide) 1 0 1 5000]) path := by
  have h := route_plan_exact .insertion (bareCoordinator 3 false)
    [peer 65 (by decide) 2 1 0 5000, peer 66 (by decide) 1 0 1 5000] rfl rfl (by decide) (by decide)
  exact ⟨⟨_, rfl⟩, h.1.mp ⟨_, rfl⟩⟩

/-- Without a hop there is no blob to read a target from, and a worker that registers again on its host takes the
    place of its older entry, which may have been the one a route needs. -/
theorem route_plan_not_literal :
    (∃ plan, buildRoutePlan .insertion (bareCoordinator 1 true) = .ok plan ∧
      (getReturnTarget plan.blob plan.entry.length).isOk = false) ∧
    ∃ tail relay mute : Host × Hello,
      (∀ p ∈ [tail, relay, mute], helloError (bareCoordinator 3 false) p.2 = none) ∧
      (buildRoutePlan .insertion (registerAll (bareCoordinator 3 false) [tail, mute, relay])).isOk = true ∧
      (buildRoutePlan .insertion (registerAll (bareCoordinator 3 false) [tail, relay, mute])).isOk = false := by
  refine ⟨⟨_, rfl, rfl⟩, peer 65 (by decide) 2 1 0 5000, peer 66 (by decide) 1 0 1 5000, peer 66 (by decide) 1 0 0 5001,
    ?_, ?_, ?_⟩
  · decide
  · decide
  · decide

end Ds4.Dist.Route
