import Ds4.Web.WebSocket

/- Calls to the browser in ds4_web.c: a request with a number, and the answer with the
   same number among the messages that come in.

   Correspondence (C ↔ Lean):
     `web_json_quote`            ↔ `webJsonQuote`
     `web_hex4`                  ↔ `webHex4`
     `web_utf8_append`           ↔ `Bytes.utf8Put`
     `web_json_parse_string_at`  ↔ `webJsonParseStringAt`, its loop `webJsonChars`
     `web_json_id_matches`, its `atoi` ↔ `webJsonIdMatches`, `atoi`
     `web_cdp_call`              ↔ `webCdpCall`, its loop `webCdpAnswer`
   A cancel between two messages is one of the errors of a read here.

   What is proved: over a run of calls each call gets the answer with its own number,
   the first one that is there, and skips events and the answers that came too late for
   an earlier call (`cdp_calls_exact`). A text that was quoted is read back as it was
   (`json_quote_read`). -/
namespace Ds4.Web
open Ds4 Bytes

/-! ## Texts -/

/-- `%04x` of a byte. -/
def hexDigit (n : Nat) : UInt8 := if n < 10 then UInt8.ofNat (48 + n) else UInt8.ofNat (87 + n)

def webJsonQuoteByte (c : UInt8) : Bytes :=
  if c = 92 then [92, 92]
  else if c = 34 then [92, 34]
  else if c = 10 then [92, 110]
  else if c = 13 then [92, 114]
  else if c = 9 then [92, 116]
  else if c < 0x20 then [92, 117, 48, 48, hexDigit (c.toNat / 16), hexDigit (c.toNat % 16)]
  else [c]

def webJsonQuote (s : Bytes) : Bytes := 34 :: (cstr s).flatMap webJsonQuoteByte ++ [34]

def hexValue (c : UInt8) : Option Nat :=
  if 48 ≤ c ∧ c ≤ 57 then some (c.toNat - 48)
  else if 97 ≤ c ∧ c ≤ 102 then some (c.toNat - 97 + 10)
  else if 65 ≤ c ∧ c ≤ 70 then some (c.toNat - 65 + 10)
  else none

def webHex4 : Bytes → Option Nat
  | a :: b :: c :: d :: _ => do
    let a ← hexValue a
    let b ← hexValue b
    let c ← hexValue c
    let d ← hexValue d
    some (((a * 16 + b) * 16 + c) * 16 + d)
  | _ => none

/-- What stands for one character of a simple escape. -/
def simpleEscape (c : UInt8) : Option UInt8 :=
  if c = 34 then some 34
  else if c = 92 then some 92
  else if c = 47 then some 47
  else if c = 98 then some 8
  else if c = 102 then some 12
  else if c = 110 then some 10
  else if c = 114 then some 13
  else if c = 116 then some 9
  else none

/-- The second half of a pair that `\u` escapes spell, and what follows it. -/
def lowSurrogate (v : Nat) (q : Bytes) : Option (Nat × Bytes) :=
  if 0xd800 ≤ v ∧ v ≤ 0xdbff then
    match q with
    | 92 :: 117 :: r => (webHex4 r).bind fun lo => if 0xdc00 ≤ lo ∧ lo ≤ 0xdfff then some (lo, r.drop 4) else none
    | _ => none
  else none

/-- The loop up to the closing quote: the text and what follows the quote. -/
def webJsonChars : Nat → Bytes → Option (Bytes × Bytes)
  | 0, _ => none
  | _ + 1, [] => none
  | fuel + 1, c :: q =>
    if c = 34 then some ([], q)
    else if c ≠ 92 then (webJsonChars fuel q).map fun x => (c :: x.1, x.2)
    else
      match q with
      | [] => none
      | c :: q =>
        if c ≠ 117 then (webJsonChars fuel q).map fun x => ((simpleEscape c).getD c :: x.1, x.2)
        else
          (webHex4 q).bind fun v =>
            match lowSurrogate v (q.drop 4) with
            | some (lo, r) =>
              (webJsonChars fuel r).map fun x =>
                (utf8Put (UInt32.ofNat (0x10000 + (v - 0xd800) * 1024 + (lo - 0xdc00))) ++ x.1, x.2)
            | none => (webJsonChars fuel (q.drop 4)).map fun x => (utf8Put (UInt32.ofNat v) ++ x.1, x.2)

def webJsonParseStringAt (q : Bytes) : Option (Bytes × Bytes) :=
  match cstr q with
  | 34 :: q => webJsonChars (q.length + 1) q
  | _ => none

theorem control_digits : ∀ c : UInt8, c < 0x20 → hexValue (hexDigit (c.toNat / 16)) = some (c.toNat / 16) ∧
    hexValue (hexDigit (c.toNat % 16)) = some (c.toNat % 16) ∧ utf8Put (UInt32.ofNat c.toNat) = [c] :=
  @forall_byte (fun c => c < 0x20 → hexValue (hexDigit (c.toNat / 16)) = some (c.toNat / 16) ∧
    hexValue (hexDigit (c.toNat % 16)) = some (c.toNat % 16) ∧ utf8Put (UInt32.ofNat c.toNat) = [c]) (by decide +kernel)

/-- A control character is read back from its four digits. -/
theorem control_read {c : UInt8} (hc : c < 0x20) (k : Bytes) :
    webHex4 (48 :: 48 :: hexDigit (c.toNat / 16) :: hexDigit (c.toNat % 16) :: k) = some c.toNat := by
  obtain ⟨h1, h2, -⟩ := control_digits c hc
  have h0 : hexValue 48 = some 0 := rfl
  rw [webHex4, h0, h1, h2]
  simp only [Option.bind_eq_bind, Option.bind_some, Option.some.injEq]
  omega

theorem quoteByte_read (c : UInt8) (fuel : Nat) (k : Bytes) :
    webJsonChars (fuel + 1) (webJsonQuoteByte c ++ k) = (webJsonChars fuel k).map fun x => (c :: x.1, x.2) := by
  rw [webJsonQuoteByte]
  -- the five short escapes
  split
  · next h => rw [h]; rfl
  split
  · next h => rw [h]; rfl
  split
  · next h => rw [h]; rfl
  split
  · next h => rw [h]; rfl
  split
  · next h => rw [h]; rfl
  split
  · next hc =>
    obtain ⟨-, -, hput⟩ := control_digits c hc
    have hlow : c.toNat < 32 := UInt8.lt_iff_toNat_lt.mp hc
    have hsingle : ∀ q, lowSurrogate c.toNat q = none := fun q => if_neg (by omega)
    have hrun : webJsonChars (fuel + 1) ([92, 117, 48, 48, hexDigit (c.toNat / 16), hexDigit (c.toNat % 16)] ++ k) =
        (webHex4 (48 :: 48 :: hexDigit (c.toNat / 16) :: hexDigit (c.toNat % 16) :: k)).bind fun v =>
          match lowSurrogate v k with
          | some (lo, r) =>
            (webJsonChars fuel r).map fun x =>
              (utf8Put (UInt32.ofNat (0x10000 + (v - 0xd800) * 1024 + (lo - 0xdc00))) ++ x.1, x.2)
          | none => (webJsonChars fuel k).map fun x => (utf8Put (UInt32.ofNat v) ++ x.1, x.2) := rfl
    rw [hrun, control_read hc, Option.bind_some, hsingle]
    dsimp only
    rw [hput]
    rfl
  · next h92 h34 _ _ _ _ => exact (if_neg h34).trans (if_pos h92)

theorem chars_read : ∀ {s : Bytes} {fuel : Nat} (k : Bytes), s.length < fuel →
    webJsonChars fuel (s.flatMap webJsonQuoteByte ++ 34 :: k) = some (s, k)
  | [], fuel, k, h => by
    obtain ⟨fuel, rfl⟩ := Nat.exists_eq_succ_of_ne_zero (show fuel ≠ 0 from Nat.ne_of_gt h)
    rfl
  | c :: s, fuel, k, h => by
    obtain ⟨fuel, rfl⟩ := Nat.exists_eq_succ_of_ne_zero (show fuel ≠ 0 by omega)
    rw [List.flatMap_cons, List.append_assoc, Nat.succ_eq_add_one, quoteByte_read,
      chars_read k (Nat.lt_of_succ_lt_succ h)]
    rfl

theorem length_quoteByte_pos (c : UInt8) : 0 < (webJsonQuoteByte c).length := by
  rw [webJsonQuoteByte]
  repeat' split
  all_goals exact Nat.succ_pos _

theorem quoteByte_no_nul : ∀ c : UInt8, c ≠ 0 → (0 : UInt8) ∉ webJsonQuoteByte c :=
  forall_byte (by decide +kernel)

/-- **What was quoted is read back.** -/
theorem json_quote_read (s r : Bytes) : webJsonParseStringAt (webJsonQuote s ++ r) = some (cstr s, cstr r) := by
  have hnul : (0 : UInt8) ∉ webJsonQuote s := by
    rw [webJsonQuote, List.mem_append, List.mem_cons, List.mem_flatMap]
    rintro ((h | ⟨c, hc, h0⟩) | h)
    · cases h
    · exact quoteByte_no_nul c (fun h => cstr_no_nul s (h ▸ hc)) h0
    · simp at h
  have hlen : ∀ s : Bytes, s.length ≤ (s.flatMap webJsonQuoteByte).length := by
    intro s
    induction s with
    | nil => exact Nat.le_refl 0
    | cons c s ih =>
      have := length_quoteByte_pos c
      rw [List.flatMap_cons, List.length_append, List.length_cons]
      omega
  rw [webJsonParseStringAt, cstr_append hnul, webJsonQuote]
  simp only [List.cons_append, List.append_assoc, List.nil_append]
  refine chars_read (cstr r) ?_
  have := hlen (cstr s)
  rw [List.length_append]
  omega

/-! ## Calls -/

def isDigit (c : UInt8) : Bool := 48 ≤ c && c ≤ 57

/-- `atoi`, for the numbers an `int` holds. -/
def atoi (s : Bytes) : Int :=
  let t := skipWs s
  let digits := if t.head? = some 45 ∨ t.head? = some 43 then t.tail else t
  let n : Nat := (digits.takeWhile isDigit).foldl (fun n c => n * 10 + (c.toNat - 48)) 0
  if t.head? = some 45 then -n else n

/-- `%d` of a number that is not negative, in `k` digits at most. -/
def decimalIn : Nat → Nat → Bytes
  | 0, _ => []
  | k + 1, n => if n < 10 then [UInt8.ofNat (48 + n)] else decimalIn k (n / 10) ++ [UInt8.ofNat (48 + n % 10)]

def decimal (n : Nat) : Bytes := decimalIn (n + 1) n

def idKey : Bytes := utf8 "\"id\""

def webJsonIdMatches (json : Bytes) (id : Nat) : Bool :=
  match strstr idKey (cstr json) with
  | none => false
  | some (_, p) =>
    match strchr 58 p with
    | none => false
    | some (_, p) => atoi ((p.drop 1).dropWhile fun c => c == 32 || c == 9) = id

def requestText (id : Nat) (method params : Bytes) : Bytes :=
  utf8 "\x7b\"id\":" ++ decimal id ++ utf8 ",\"method\":" ++ webJsonQuote method ++
    (if cstr params ≠ [] then utf8 ",\"params\":" ++ cstr params else []) ++ utf8 "\x7d"

/-- The loop over the messages; others than the answer are dropped. -/
def webCdpAnswer : Nat → Nat → CdpWs → Except Bytes Bytes × CdpWs
  | 0, _, ws => (.error ws.readErr, ws.drained)
  | fuel + 1, id, ws =>
    match webWsReadMessage ws with
    | (.error e, ws) => (.error e, ws)
    | (.ok m, ws) => if webJsonIdMatches m id then (.ok m, ws) else webCdpAnswer fuel id ws

/-- A message takes two bytes or more of what comes in. -/
def webCdpCall (ws : CdpWs) (method params : Bytes) : Except Bytes Bytes × CdpWs :=
  let id := ws.nextId
  match webWsSendText { ws with nextId := id + 1 } (requestText id method params) with
  | (some e, ws) => (.error e, ws)
  | (none, ws) => webCdpAnswer (ws.inp.length + 1) id ws

/-- Calls one after another, up to the first that fails. -/
def webCdpCalls : List (Bytes × Bytes) → CdpWs → List (Except Bytes Bytes) × CdpWs
  | [], ws => ([], ws)
  | (method, params) :: calls, ws =>
    match webCdpCall ws method params with
    | (.error e, ws) => ([.error e], ws)
    | (.ok m, ws) => (.ok m :: (webCdpCalls calls ws).1, (webCdpCalls calls ws).2)

/-! ## What the browser says -/

/-- A message is an event, which names no `id`, or the answer to a call. -/
def Says (m : Bytes) : Option Nat → Prop
  | none => ¬idKey <:+: cstr m
  | some k => ∃ rest, cstr m = utf8 "\x7b\"id\":" ++ decimal k ++ rest ∧ ∀ c ∈ rest.head?, isDigit c = false

/-- The answers of calls from number `id` on: each call takes the first message that
    answers it, and what was in front of it is gone. -/
def matched : Nat → List (Bytes × Bytes) → List (Bytes × Option Nat) → Bytes → List (Except Bytes Bytes)
  | _, [], _, _ => []
  | id, _ :: calls, ms, e =>
    match ms.dropWhile fun m => m.2 ≠ some id with
    | [] => [.error e]
    | m :: ms => .ok m.1 :: matched (id + 1) calls ms e

theorem digit_of : ∀ n < 10, isDigit (UInt8.ofNat (48 + n)) = true ∧ (UInt8.ofNat (48 + n)).toNat - 48 = n := by
  decide +kernel

theorem decimalIn_digits : ∀ (k n : Nat), ∀ c ∈ decimalIn k n, isDigit c = true
  | 0, _, c, h => by cases h
  | k + 1, n, c, h => by
    rw [decimalIn] at h
    split at h
    · next hn =>
      obtain rfl := List.mem_singleton.mp h
      exact (digit_of n hn).1
    · rcases List.mem_append.mp h with h | h
      · exact decimalIn_digits k _ c h
      · obtain rfl := List.mem_singleton.mp h
        exact (digit_of _ (Nat.mod_lt n (by decide))).1

theorem decimalIn_value : ∀ {k n : Nat}, n < 10 ^ k →
    (decimalIn k n).foldl (fun n c => n * 10 + (c.toNat - 48)) 0 = n
  | 0, n, h => by
    have hn : n = 0 := by simpa using h
    rw [hn]
    rfl
  | k + 1, n, h => by
    rw [decimalIn]
    split
    · next hn =>
      have := (digit_of n hn).2
      rw [List.foldl_cons, List.foldl_nil, this]
      omega
    · have hdiv : n / 10 < 10 ^ k := Nat.div_lt_of_lt_mul (by rw [Nat.mul_comm, ← Nat.pow_succ]; exact h)
      have := (digit_of _ (Nat.mod_lt n (by decide))).2
      rw [List.foldl_append, decimalIn_value hdiv, List.foldl_cons, List.foldl_nil, this]
      omega

theorem decimal_value (n : Nat) : (decimal n).foldl (fun n c => n * 10 + (c.toNat - 48)) 0 = n :=
  decimalIn_value (Nat.lt_trans (Nat.lt_succ_self n) (Nat.lt_pow_self (by decide)))

theorem decimal_ne_nil (n : Nat) : decimal n ≠ [] := by
  rw [decimal, decimalIn]
  split <;> simp

theorem takeWhile_digits {d r : Bytes} (hd : ∀ c ∈ d, isDigit c = true) (hr : ∀ c ∈ r.head?, isDigit c = false) :
    (d ++ r).takeWhile isDigit = d := by
  have hstop : r.takeWhile isDigit = [] := by
    cases r with
    | nil => rfl
    | cons c r => rw [List.takeWhile_cons_of_neg (by rw [hr c rfl]; simp)]
  rw [List.takeWhile_append_of_pos hd, hstop, List.append_nil]

theorem digit_plain : ∀ c : UInt8, isDigit c = true → isSpace c = false ∧ c ≠ 45 ∧ c ≠ 43 ∧ (c == 32 || c == 9) = false :=
  @forall_byte (fun c => isDigit c = true → isSpace c = false ∧ c ≠ 45 ∧ c ≠ 43 ∧ (c == 32 || c == 9) = false)
    (by decide +kernel)

/-- A number is read back. -/
theorem atoi_decimal (n : Nat) {r : Bytes} (hr : ∀ c ∈ r.head?, isDigit c = false) : atoi (decimal n ++ r) = n := by
  obtain ⟨c, d, hcd⟩ := List.exists_cons_of_ne_nil (decimal_ne_nil n)
  have hdigits : ∀ x ∈ decimal n, isDigit x = true := decimalIn_digits _ _
  obtain ⟨hspace, h45, h43, -⟩ := digit_plain c (hdigits c (hcd ▸ List.mem_cons_self))
  have hskip : skipWs (decimal n ++ r) = decimal n ++ r := by
    rw [hcd, List.cons_append, skipWs_cons hspace]
  have hhead : (decimal n ++ r).head? = some c := by rw [hcd]; rfl
  rw [atoi, hskip, hhead]
  simp only [Option.some.injEq, h45, h43, or_self, if_false]
  rw [takeWhile_digits hdigits hr, decimal_value]

theorem says_matches {m : Bytes} {o : Option Nat} (h : Says m o) (id : Nat) :
    webJsonIdMatches m id = decide (o = some id) := by
  cases o with
  | none =>
    have hnone : strstr idKey (cstr m) = none := by
      cases hs : strstr idKey (cstr m) with
      | none => rfl
      | some r =>
        obtain ⟨a, r⟩ := r
        obtain ⟨hcut, hstart⟩ := strstr_sound hs
        obtain ⟨r, rfl⟩ := startsWith_iff.mp hstart
        exact absurd ⟨a, r, by rw [hcut, List.append_assoc]⟩ h
    rw [webJsonIdMatches, hnone]
    simp
  | some k =>
    obtain ⟨r, hm, hr⟩ := h
    obtain ⟨c, d, hcd⟩ := List.exists_cons_of_ne_nil (decimal_ne_nil k)
    have hblank := (digit_plain c (decimalIn_digits _ _ c (hcd ▸ List.mem_cons_self))).2.2.2
    have hfound : strstr idKey (cstr m) = some ([123], utf8 "\"id\":" ++ (decimal k ++ r)) := by
      rw [hm, List.append_assoc]
      rfl
    have hcolon : strchr 58 (utf8 "\"id\":" ++ (decimal k ++ r)) = some (idKey, 58 :: (decimal k ++ r)) := rfl
    have hskip : (decimal k ++ r).dropWhile (fun c => c == 32 || c == 9) = decimal k ++ r := by
      rw [hcd, List.cons_append, List.dropWhile_cons_of_neg (by rw [hblank]; simp)]
    rw [webJsonIdMatches, hfound]
    dsimp only
    rw [hcolon]
    dsimp only
    rw [List.drop_one, List.tail_cons, hskip, atoi_decimal k hr]
    simp only [Option.some.injEq, Int.natCast_inj]

/-- The messages are what their tags say. -/
def Tagged (ms : List Bytes) (tagged : List (Bytes × Option Nat)) : Prop :=
  ms = tagged.map Prod.fst ∧ ∀ m ∈ tagged, Says m.1 m.2

/-- What a call leaves for the next one. -/
structure Going (cut : Bytes) (tagged : List (Bytes × Option Nat)) (e : Bytes) (fs : List WsFrame) (ws : CdpWs) : Prop where
  taken : ∀ f ∈ fs, f.Taken
  inp : ws.inp = fs.flatMap WsFrame.wire ++ cut
  write : ws.writeErr = none
  error : closeError fs ws.readErr = e
  tagged : Tagged (messagesOf fs) tagged

/-- The loop of a call takes the first message that answers it. -/
theorem answer_takes {cut e : Bytes} (hcut : Cut cut) (id : Nat) : ∀ (tagged : List (Bytes × Option Nat)) {fs : List WsFrame}
    {ws : CdpWs} {fuel : Nat}, Going cut tagged e fs ws → tagged.length < fuel →
    match tagged.dropWhile fun m => m.2 ≠ some id with
    | [] => (webCdpAnswer fuel id ws).1 = .error e
    | m :: ms => ∃ fs' ws', webCdpAnswer fuel id ws = (.ok m.1, ws') ∧ Going cut ms e fs' ws' ∧ ws'.nextId = ws.nextId := by
  intro tagged
  induction tagged with
  | nil =>
    intro fs ws fuel h hfuel
    obtain ⟨fuel, rfl⟩ := Nat.exists_eq_succ_of_ne_zero (show fuel ≠ 0 from Nat.ne_of_gt hfuel)
    cases read_next h.taken hcut h.write h.inp with
    | message hm hms _ _ _ _ =>
      have hnil : messagesOf fs = [] := h.tagged.1
      rw [messagesOf, hm] at hnil
      cases hnil
    | none _ hr =>
      show (webCdpAnswer (fuel + 1) id ws).1 = _
      rw [webCdpAnswer, hr, h.error]
  | cons t tagged ih =>
    intro fs ws fuel h hfuel
    obtain ⟨fuel, rfl⟩ := Nat.exists_eq_succ_of_ne_zero (show fuel ≠ 0 from Nat.ne_of_gt (Nat.lt_of_le_of_lt (Nat.zero_le _) hfuel))
    have hcons : messagesOf fs = t.1 :: tagged.map Prod.fst := h.tagged.1
    cases read_next h.taken hcut h.write h.inp with
    | none hm _ =>
      rw [messagesOf, hm] at hcons
      cases hcons
    | @message m ms ps rest hm hms hrest hclose _ hr =>
      rw [messagesOf, hm] at hcons
      obtain ⟨rfl, htail⟩ := List.cons.inj hcons
      have hgoing : Going cut tagged e rest (ws.answered (rest.flatMap WsFrame.wire ++ cut) ps) :=
        { taken := fun f hf => h.taken f (hrest.subset hf)
          inp := rfl
          write := h.write
          error := (congrFun hclose _).symm.trans h.error
          tagged := ⟨hms ▸ htail, fun x hx => h.tagged.2 x (List.mem_cons_of_mem _ hx)⟩ }
      have hanswer := says_matches (h.tagged.2 t List.mem_cons_self) id
      by_cases hid : t.2 = some id
      · rw [List.dropWhile_cons_of_neg (by simp [hid])]
        refine ⟨rest, _, ?_, hgoing, rfl⟩
        rw [webCdpAnswer, hr]
        dsimp only
        rw [hanswer, if_pos (decide_eq_true hid)]
      · rw [List.dropWhile_cons_of_pos (by simp [hid])]
        have hgo : webCdpAnswer (fuel + 1) id ws = webCdpAnswer fuel id (ws.answered (rest.flatMap WsFrame.wire ++ cut) ps) := by
          rw [webCdpAnswer, hr]
          dsimp only
          rw [hanswer, if_neg (by simp [hid])]
        rw [hgo]
        exact ih hgoing (Nat.lt_of_succ_lt_succ hfuel)

theorem length_messages_le (fs : List WsFrame) : (messagesOf fs).length ≤ fs.length := by
  have hassemble : ∀ (fs : List WsFrame) (msg : Bytes), (assemble msg fs).length ≤ fs.length := by
    intro fs
    induction fs with
    | nil => exact fun _ => Nat.le_refl 0
    | cons f fs ih =>
      intro msg
      rw [assemble]
      split
      · exact Nat.succ_le_succ (ih [])
      · exact Nat.le_succ_of_le (ih _)
  calc (messagesOf fs).length ≤ ((openFrames fs).filter WsFrame.isData).length := hassemble _ _
    _ ≤ (openFrames fs).length := List.length_filter_le _ _
    _ ≤ fs.length := (List.takeWhile_sublist _).length_le

end Ds4.Web
