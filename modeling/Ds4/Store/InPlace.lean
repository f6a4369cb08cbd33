import Ds4.UpdateStream
import Ds4.Store.Written

/- A checkpoint file under its updates in place: a touch puts a new header over the
   old one; the trailer rewrite cuts the file behind its payload, appends a new
   trailer and then puts a new header too. There is no temporary file, and every
   call of the stream may fail where it stands.

   PROVED here: what an update may write over is the flags, the hits, the time of
   the last use and the trailer, so a file is the same checkpoint in every course
   of any updates (`updates_keep_checkpoint`); where nothing fails, an update is
   the store's (`update_touchFile`, `update_rewriteTrailer`).

   Correspondence (C ↔ Lean):
     `ds4_kvstore_read_header`, from a stream         ↔ `readHeaderFrom`
     `ds4_kvstore_touch_file`                         ↔ `touchFile`
     `kv_cache_rewrite_trailer`                       ↔ `rewriteTrailer`
     the reads of `ds4_kvstore_try_load_text`         ↔ `readCheckpoint`
   The values of `time` are arguments. -/
namespace Ds4.Store.InPlace
open Ds4 Bytes Ds4.Stream

/-! ## The updates -/

/-- What the header says is looked at once, behind both reads. -/
def readHeaderFrom : Stream.Op (Option Header) := do
  let h ← fread fixedHeader
  if h.length ≠ fixedHeader then return none
  let tb ← fread 4
  return readHeader (h ++ tb)

def putHeader (h : Bytes) : Stream.Op Bool := do
  if ← fseek 0 then
    let n ← fwrite h
    return n == fixedHeader
  else return false

def touchFile (hits now : Nat) : Stream.Op Bool := do
  if ← fopen then
    match ← readHeaderFrom with
    | none =>
      fclose
      return false
    | some e =>
      let ok ← putHeader (fillHeader e.modelId e.quantBits e.reason e.extFlags e.tokens hits e.ctxSize e.createdAt now e.payloadBytes)
      fclose
      return ok
  else return false

/-- What a trailer hook does with the stream: writes, each seen to be taken or not, and a count or a failure. -/
inductive HookRun where
  | done (written : Option Nat)
  | fwrite (b : Bytes) (k : Nat → HookRun)

def HookRun.run : HookRun → Stream.Op (Option Nat)
  | done written => return written
  | fwrite b k => do
    let n ← Stream.fwrite b
    (k n).run

structure Hooks where
  extFlag : Nat
  serializedSize : Option (Bytes → Option Nat)
  write : Option (Bytes → HookRun)

/-- What the hooks have to write, if they announce anything. -/
def announced (hooks : Option Hooks) (text : Bytes) : Option (Nat × HookRun) := do
  let h ← hooks
  let write ← h.write
  let size ← h.serializedSize
  let est ← size (cstr text)
  if est = 0 then none else some (h.extFlag, write (cstr text))

/-- The trailer, and behind a successful one the header. -/
def putTrailer (hdr : Header) (extFlag : Nat) (hook : HookRun) (now : Nat) : Stream.Op Unit := do
  match ← hook.run with
  | none => return ()
  | some ignored =>
    if ← fflush then
      if 0 < ignored then
        if ← putHeader (fillHeader hdr.modelId hdr.quantBits hdr.reason (hdr.extFlags ||| extFlag) hdr.tokens hdr.hits hdr.ctxSize
            hdr.createdAt now hdr.payloadBytes) then
          let _ ← fflush

def rewriteTail (hdr : Header) (extFlag : Nat) (hook : HookRun) (now : Nat) : Stream.Op Unit := do
  let fileEnd := (fixedHeader + 4 + hdr.textBytes + hdr.payloadBytes) % 2 ^ 64
  if fileEnd ≤ 2 ^ 63 - 1 then
    if ← fseek fileEnd then
      if ← Stream.ftruncate fileEnd then
        putTrailer hdr extFlag hook now

def rewriteTrailer (text : Bytes) (hooks : Option Hooks) (now : Nat) : Stream.Op Unit :=
  match announced hooks text with
  | none => return ()
  | some (extFlag, hook) => do
    if ← fopen then
      match ← readHeaderFrom with
      | none => fclose
      | some hdr =>
        rewriteTail hdr extFlag hook now
        fclose

inductive Update where
  | touch (hits now : Nat)
  | rewrite (text : Bytes) (hooks : Option Hooks) (now : Nat)

def Update.perform : Update → Stream.Op Unit
  | touch hits now => do
    let _ ← touchFile hits now
  | rewrite text hooks now => rewriteTrailer text hooks now

def performAll : List Update → Stream.Op Unit
  | [] => return ()
  | u :: updates => do
    u.perform
    performAll updates

/-- The header, the text and where the payload starts, as a load takes them. -/
def readCheckpoint : Stream.Op (Option (Header × Bytes × Nat)) := do
  if ← fopen then
    match ← readHeaderFrom with
    | none => return none
    | some hdr =>
      let text ← fread hdr.textBytes
      if text.length ≠ hdr.textBytes then return none
      let s ← stream
      return some (hdr, text, s.pos)
  else return none

/-! ## Checkpoints -/

/-- What a checkpoint is for its whole life. -/
structure Checkpoint where
  modelId : UInt8
  quantBits : UInt8
  reason : UInt8
  tokens : UInt32
  ctxSize : UInt32
  createdAt : UInt64
  text : Bytes
  payload : Bytes
  tokens_ne : tokens ≠ 0
  quant : quantBits = 2 ∨ quantBits = 4
  reason_le : reason.toNat ≤ reasonAgentSession
  text_lt : text.length < 2 ^ 32
  /-- The sizes are those `kv_cache_file_size_bytes` can add. -/
  fits : fixedHeader + 4 + text.length + payload.length < 2 ^ 64

/-- What the updates change. -/
structure Usage where
  extFlags : UInt8
  hits : UInt32
  lastUsed : UInt64
  trailer : Bytes

namespace Checkpoint
variable (c : Checkpoint) (u : Usage)

def fixed (extFlags hits lastUsed : Nat) : Bytes :=
  fillHeader c.modelId.toNat c.quantBits.toNat c.reason.toNat extFlags c.tokens.toNat hits c.ctxSize.toNat c.createdAt.toNat lastUsed
    c.payload.length

/-- The file: header, text length, text, payload, trailer. -/
def file : Bytes :=
  c.fixed u.extFlags.toNat u.hits.toNat u.lastUsed.toNat ++ (lePut 4 c.text.length ++ (c.text ++ (c.payload ++ u.trailer)))

def header : Header :=
  { quantBits := c.quantBits.toNat, modelId := c.modelId.toNat, reason := c.reason.toNat, tokens := c.tokens.toNat
    hits := u.hits.toNat, ctxSize := c.ctxSize.toNat, extFlags := u.extFlags.toNat, createdAt := c.createdAt.toNat
    lastUsed := u.lastUsed.toNat, payloadBytes := c.payload.length, textBytes := c.text.length }

/-- Where the trailer starts. -/
def fileEnd : Nat := fixedHeader + 4 + c.text.length + c.payload.length

theorem length_file : (c.file u).length = c.fileEnd + u.trailer.length := by
  simp only [file, fixed, fileEnd, List.length_append, length_fillHeader, length_lePut]
  omega

theorem readHeader_file : readHeader (c.file u) = some (c.header u) := by
  have hrest : 4 ≤ (lePut 4 c.text.length ++ (c.text ++ (c.payload ++ u.trailer))).length := by
    rw [List.length_append, length_lePut]
    omega
  have htake : (lePut 4 c.text.length ++ (c.text ++ (c.payload ++ u.trailer))).take 4 = lePut 4 c.text.length :=
    List.take_left' (length_lePut _ _)
  have htok : c.tokens.toNat % 2 ^ 32 = c.tokens.toNat := Nat.mod_eq_of_lt c.tokens.toNat_lt
  have htok0 : c.tokens.toNat ≠ 0 := fun h => c.tokens_ne (UInt32.toNat_inj.mp h)
  have hq : c.quantBits.toNat = 2 ∨ c.quantBits.toNat = 4 := by
    rcases c.quant with h | h
    · exact Or.inl (congrArg UInt8.toNat h)
    · exact Or.inr (congrArg UInt8.toNat h)
  have hpay : c.payload.length % 2 ^ 64 = c.payload.length := Nat.mod_eq_of_lt (by have := c.fits; omega)
  have hget : leGet (lePut 4 c.text.length) = c.text.length := by
    rw [leGet_lePut]
    exact Nat.mod_eq_of_lt c.text_lt
  have hmodel : c.modelId.toNat % 256 = c.modelId.toNat := Nat.mod_eq_of_lt c.modelId.toNat_lt
  have hctx : c.ctxSize.toNat % 2 ^ 32 = c.ctxSize.toNat := Nat.mod_eq_of_lt c.ctxSize.toNat_lt
  have hcreated : c.createdAt.toNat % 2 ^ 64 = c.createdAt.toNat := Nat.mod_eq_of_lt c.createdAt.toNat_lt
  have hhits : u.hits.toNat % 2 ^ 32 = u.hits.toNat := Nat.mod_eq_of_lt u.hits.toNat_lt
  have hflags : u.extFlags.toNat % 256 = u.extFlags.toNat := Nat.mod_eq_of_lt u.extFlags.toNat_lt
  have hused : u.lastUsed.toNat % 2 ^ 64 = u.lastUsed.toNat := Nat.mod_eq_of_lt u.lastUsed.toNat_lt
  rw [file, fixed, readHeader_fill hrest (by rw [htok]; exact htok0) hq c.reason_le, htake, hget, htok, hpay, hmodel, hctx, hcreated,
    hhits, hflags, hused]
  rfl

/-! ## The bytes no update writes over -/

/-- Magic, version, quantization and reason. -/
def lead : Bytes := utf8 "KVC" ++ (lePut 1 kvCacheVersion ++ (lePut 1 c.quantBits.toNat ++ lePut 1 c.reason.toNat))
/-- Model and tokens. -/
def mid : Bytes := lePut 1 c.modelId.toNat ++ lePut 4 c.tokens.toNat
/-- Context size, payload ABI and time of creation. -/
def late : Bytes := lePut 4 c.ctxSize.toNat ++ (lePut 4 kvCachePayloadAbi ++ lePut 8 c.createdAt.toNat)
/-- Payload size, text length, text and payload. -/
def body : Bytes := lePut 8 c.payload.length ++ (lePut 4 c.text.length ++ (c.text ++ c.payload))

theorem length_lead : c.lead.length = 6 := by simp [lead, length_kvc]
theorem length_mid : c.mid.length = 5 := by simp [mid]
theorem length_late : c.late.length = 16 := by simp [late]
theorem length_body : c.body.length = c.fileEnd - 40 := by
  simp [body, fileEnd, fixedHeader]
  omega

theorem file_parts : c.file u = c.lead ++ (lePut 1 u.extFlags.toNat ++ (c.mid ++ (lePut 4 u.hits.toNat ++ (c.late ++
    (lePut 8 u.lastUsed.toNat ++ (c.body ++ u.trailer)))))) := by
  simp only [file, fixed, fillHeader, lead, mid, late, body, List.append_assoc]

/-- Where an update may write: the flags, the hits, the time of the last use, the trailer. -/
def spare (i : Nat) : Bool := i == 6 || (decide (12 ≤ i) && decide (i < 16)) || (decide (32 ≤ i) && decide (i < 40)) ||
  decide (c.fileEnd ≤ i)

def unused : Usage := ⟨0, 0, 0, []⟩

def frame : Frame := fun i => if c.spare i then none else (c.file unused)[i]?

/-- A byte beside a hole does not depend on what is in the hole. -/
theorem getElem?_hole {a b b' r r' : Bytes} {n i : Nat} (hb : b.length = n) (hb' : b'.length = n)
    (hi : i < a.length ∨ a.length + n ≤ i)
    (hr : a.length + n ≤ i → r[i - (a.length + n)]? = r'[i - (a.length + n)]?) :
    (a ++ (b ++ r))[i]? = (a ++ (b' ++ r'))[i]? := by
  rcases hi with hi | hi
  · rw [List.getElem?_append_left hi, List.getElem?_append_left hi]
  · rw [List.getElem?_append_right (by omega), List.getElem?_append_right (by omega), List.getElem?_append_right (by omega),
      List.getElem?_append_right (by omega), hb, hb', Nat.sub_sub]
    exact hr hi

theorem getElem?_file {i : Nat} (hi : c.spare i = false) (u' : Usage) : (c.file u)[i]? = (c.file u')[i]? := by
  have hlead := c.length_lead
  have hmid := c.length_mid
  have hlate := c.length_late
  have hbody := c.length_body
  simp only [spare, Bool.or_eq_false_iff, Bool.and_eq_false_iff, beq_eq_false_iff_ne, decide_eq_false_iff_not] at hi
  obtain ⟨⟨⟨h6, h12⟩, h32⟩, hend⟩ := hi
  rw [file_parts, file_parts]
  apply getElem?_hole (length_lePut _ _) (length_lePut _ _) (by omega)
  intro h7
  apply getElem?_hole (length_lePut _ _) (length_lePut _ _) (by omega)
  intro h16
  apply getElem?_hole (length_lePut _ _) (length_lePut _ _) (by omega)
  intro h40
  rw [List.getElem?_append_left (by omega), List.getElem?_append_left (by omega)]

theorem frame_file : c.frame.Of (c.file u) := by
  intro i b hb
  rw [frame] at hb
  split_ifs at hb with hi
  rw [c.getElem?_file u (Bool.eq_false_iff.mpr hi) unused]
  exact hb

theorem frame_free : c.frame.FreeFrom c.fileEnd := by
  intro i hi
  rw [frame, if_pos]
  simp [spare, hi]

theorem frame_isSome {i : Nat} (hi : c.spare i = false) : (c.frame i).isSome = true := by
  have hlt : i < (c.file unused).length := by
    rw [length_file]
    have : ¬c.fileEnd ≤ i := fun h => by simp [spare, h] at hi
    omega
  rw [frame, if_neg (by simp [hi]), List.getElem?_eq_getElem hlt]
  rfl

theorem span_file : span (c.file u) 0 6 = c.lead ∧ span (c.file u) 7 5 = c.mid ∧ span (c.file u) 16 16 = c.late ∧
    span (c.file u) 40 (c.fileEnd - 40) = c.body := by
  rw [file_parts]
  simp (disch := simp [length_lead, length_mid, length_late, length_body]) [span_append_right, span_append_left, length_lead,
    length_mid, length_late]

variable {c} in
/-- A file that keeps the bytes is the checkpoint's file still. -/
theorem file_of_frame {f : Bytes} (h : c.frame.Of f) : ∃ u, f = c.file u := by
  have hend : 52 ≤ c.fileEnd := by simp only [fileEnd, fixedHeader]; omega
  have hlen : c.fileEnd ≤ f.length := by
    obtain ⟨b, hb⟩ := Option.isSome_iff_exists.mp (c.frame_isSome (i := c.fileEnd - 1) (by simp [spare]; omega))
    have := (List.getElem?_eq_some_iff.mp (h _ b hb)).1
    omega
  obtain ⟨hlead, hmid, hlate, hbody⟩ := c.span_file unused
  have hsame : ∀ off n, (∀ i, off ≤ i → i < off + n → c.spare i = false) → span f off n = span (c.file unused) off n :=
    fun off n hfix => h.span (c.frame_file unused) fun i hi hi' => c.frame_isSome (hfix i hi hi')
  have h0 := (hsame 0 6 (fun i _ _ => by simp [spare]; omega)).trans hlead
  have h7 := (hsame 7 5 (fun i _ _ => by simp [spare]; omega)).trans hmid
  have h16 := (hsame 16 16 (fun i _ _ => by simp [spare]; omega)).trans hlate
  have h40 := (hsame 40 (c.fileEnd - 40) (fun i _ _ => by simp [spare]; omega)).trans hbody
  have hget : ∀ off n, off + n ≤ c.fileEnd → lePut n (leGet (span f off n)) = span f off n ∧ leGet (span f off n) < 256 ^ n := by
    intro off n hn
    have hn' := length_span (show off + n ≤ f.length by omega)
    have hput := lePut_leGet (span f off n)
    have hlt := leGet_lt (span f off n)
    rw [hn'] at hput hlt
    exact ⟨hput, hlt⟩
  obtain ⟨hflags, hflt⟩ := hget 6 1 (by omega)
  obtain ⟨hhits, hhlt⟩ := hget 12 4 (by omega)
  obtain ⟨hused, hult⟩ := hget 32 8 (by omega)
  refine ⟨⟨UInt8.ofNat (leGet (span f 6 1)), UInt32.ofNat (leGet (span f 12 4)), UInt64.ofNat (leGet (span f 32 8)),
    f.drop c.fileEnd⟩, ?_⟩
  rw [file_parts, UInt8.toNat_ofNat_of_lt' hflt, UInt32.toNat_ofNat_of_lt' hhlt, UInt64.toNat_ofNat_of_lt' hult, hflags, hhits,
    hused, ← h0, ← h7, ← h16, ← h40, ← drop_eq_span f 40 (by omega), ← drop_eq_span f 32 rfl, ← drop_eq_span f 16 rfl,
    ← drop_eq_span f 12 rfl, ← drop_eq_span f 7 rfl, ← drop_eq_span f 6 rfl, ← drop_eq_span f 0 rfl, List.drop_zero]

/-- A header with any flags, hits and time agrees with the frame. -/
theorem frame_fixed (extFlags hits lastUsed : Nat) : c.frame.Agrees 0 (c.fixed extFlags hits lastUsed) := by
  have h := (c.frame_file ⟨UInt8.ofNat extFlags, UInt32.ofNat hits, UInt64.ofNat lastUsed, []⟩).agrees
  have hflags : lePut 1 (UInt8.ofNat extFlags).toNat = lePut 1 extFlags := by
    rw [UInt8.toNat_ofNat']
    exact lePut_mod 1 extFlags
  have hhits : lePut 4 (UInt32.ofNat hits).toNat = lePut 4 hits := by
    rw [UInt32.toNat_ofNat']
    exact lePut_mod 4 hits
  have hused : lePut 8 (UInt64.ofNat lastUsed).toNat = lePut 8 lastUsed := by
    rw [UInt64.toNat_ofNat']
    exact lePut_mod 8 lastUsed
  simp only [fixed, fillHeader, hflags, hhits, hused] at h ⊢
  exact h

end Checkpoint

/-! ## What an update keeps -/

section
variable {c : Checkpoint} {u : Usage} {n : Nat} {f : Bytes}

/-- The header is what the first bytes say. -/
theorem readHeader_first (f : Bytes) : readHeader (span f 0 fixedHeader ++ span f fixedHeader 4) = readHeader f := by
  have hfirst : span f 0 fixedHeader ++ span f fixedHeader 4 = f.take (fixedHeader + 4) := by
    have h := span_add f 0 fixedHeader 4
    rw [Nat.zero_add] at h
    rw [← h, span, List.drop_zero]
  rw [hfirst]
  rcases Nat.le_total (fixedHeader + 4) f.length with hlen | hlen
  · have h := readHeader_append (a := f.take (fixedHeader + 4)) (b := f.drop (fixedHeader + 4)) (by
      rw [List.length_take]
      omega)
    rw [List.take_append_drop] at h
    exact h.symm
  · rw [List.take_of_length_le hlen]

/-- A header that is read is the file's, and the stream stands behind the text length. -/
theorem readHeaderFrom_reads (f : Bytes) : readHeaderFrom.Ensures apply (fun s => s = ⟨f, 0, []⟩) fun r s =>
    s.file = f ∧ s.pending = [] ∧ ∀ hd, r = some hd → readHeader f = some hd ∧ s = ⟨f, fixedHeader + 4, []⟩ := by
  refine Program.Ensures.bind (fread_reads f 0 fixedHeader) fun h => ?_
  apply Program.Ensures.ite
  · intro _
    apply Program.Ensures.pure
    rintro s ⟨rfl, -⟩
    exact ⟨rfl, rfl, by simp⟩
  · intro hlen
    rw [not_not] at hlen
    refine Program.Ensures.bind (Q := fun tb s => s = ⟨f, fixedHeader + tb.length, []⟩ ∧ h = span f 0 fixedHeader ∧
      ∃ k, tb = (span f fixedHeader 4).take k) ?_ fun tb => ?_
    · rintro s answers ⟨rfl, k, hk⟩
      rw [hlen, Nat.zero_add]
      obtain ⟨hs, htb⟩ := fread_reads f fixedHeader 4 _ answers rfl
      refine ⟨hs, ?_, htb⟩
      have hmin := congrArg List.length hk
      rw [List.length_take, hlen] at hmin
      rw [hk, List.take_of_length_le]
      have := List.length_take_le fixedHeader (f.drop 0)
      rw [span]
      omega
    · apply Program.Ensures.pure
      rintro s ⟨rfl, hh, k, hk⟩
      refine ⟨rfl, rfl, fun hd hread => ?_⟩
      obtain ⟨hmin, -, -⟩ := readHeader_eq hread
      have htb : tb.length = 4 ∧ tb = span f fixedHeader 4 := by
        have hle : (span f fixedHeader 4).length ≤ 4 := List.length_take_le _ _
        have hlen' := congrArg List.length hk
        rw [List.length_take] at hlen'
        rw [List.length_append, hlen] at hmin
        refine ⟨by omega, ?_⟩
        rw [hk, List.take_of_length_le]
        omega
      refine ⟨?_, by rw [htb.1]⟩
      rw [hh, htb.2, readHeader_first] at hread
      exact hread

theorem putHeader_keeps (extFlags hits lastUsed : Nat) :
    (putHeader (c.fixed extFlags hits lastUsed)).Ensures apply (Keeps c.frame n) fun _ => Keeps c.frame 0 := by
  unfold putHeader
  refine Program.Ensures.bind (fseek_keeps 0) fun ok => ?_
  apply Program.Ensures.ite
  · intro hok
    refine Program.Ensures.bind ((fwrite_keeps (n := 0) _).pre ?_) fun k => Program.Ensures.pure fun s hs => hs
    rintro s ⟨hs, hclean⟩
    refine ⟨hs, ?_⟩
    rw [(hclean hok).pos, (hclean hok).pending]
    exact c.frame_fixed extFlags hits lastUsed
  · intro _
    exact Program.Ensures.pure fun s hs => hs.1

theorem keeps_of_file {s : Stream} (hs : s.file = c.file u) (hp : s.pending = []) : Keeps c.frame 0 s where
  file := by
    rw [hs]
    exact c.frame_file u
  pending := by
    rw [hp]
    exact Frame.Agrees.nil
  from_le := Nat.zero_le _

theorem touchFile_keeps (hits now : Nat) :
    (touchFile hits now).Ensures apply (fun s => s.file = c.file u) fun _ s => c.frame.Of s.file := by
  unfold touchFile
  refine Program.Ensures.bind fopen_reads fun ok => ?_
  apply Program.Ensures.ite
  · intro hok
    refine Program.Ensures.bind ((readHeaderFrom_reads (c.file u)).pre fun s hs => hs.2 hok) fun r => ?_
    cases r with
    | none =>
      refine Program.Ensures.bind (fclose_keeps.pre fun s hs => keeps_of_file hs.1 hs.2.1) fun _ => ?_
      exact Program.Ensures.pure fun s hs => hs
    | some e =>
      refine Program.Ensures.known (c := e = c.header u) ?_ ?_
      · rintro s ⟨-, -, hread⟩
        exact Option.some.inj ((hread e rfl).1.symm.trans (c.readHeader_file u))
      rintro rfl
      refine Program.Ensures.bind ((putHeader_keeps _ hits now).pre fun s hs => keeps_of_file hs.1 hs.2.1) fun ok => ?_
      refine Program.Ensures.bind fclose_keeps fun _ => ?_
      exact Program.Ensures.pure fun s hs => hs
  · intro _
    apply Program.Ensures.pure
    rintro s ⟨hfile, -⟩
    rw [hfile]
    exact c.frame_file u

/-- Whatever a hook writes stands behind the payload. -/
theorem hook_keeps (hook : HookRun) : hook.run.Ensures apply (Keeps c.frame c.fileEnd) fun _ => Keeps c.frame c.fileEnd := by
  induction hook with
  | done written => exact Program.Ensures.pure fun s hs => hs
  | fwrite b k ih =>
    rw [HookRun.run]
    refine Program.Ensures.bind ((fwrite_keeps b).pre fun s hs => ⟨hs, ?_⟩) ih
    exact Frame.Agrees.of_free c.frame_free (Nat.le_add_right_of_le hs.from_le)

theorem putTrailer_keeps (extFlag : Nat) (hook : HookRun) (now : Nat) :
    (putTrailer (c.header u) extFlag hook now).Ensures apply (Keeps c.frame c.fileEnd) fun _ => Keeps c.frame 0 := by
  unfold putTrailer
  refine Program.Ensures.bind (hook_keeps hook) fun written => ?_
  cases written with
  | none => exact Program.Ensures.pure fun s hs => hs.mono (Nat.zero_le _)
  | some ignored =>
    refine Program.Ensures.bind fflush_keeps fun flushed => ?_
    apply Program.Ensures.ite
    · intro _
      apply Program.Ensures.ite
      · intro _
        refine Program.Ensures.bind ((putHeader_keeps _ _ now).pre fun s hs => hs.1) fun put => ?_
        apply Program.Ensures.ite
        · intro _
          exact Program.Ensures.bind fflush_keeps fun _ => Program.Ensures.pure fun s hs => hs.1
        · intro _
          exact Program.Ensures.pure fun s hs => hs
      · intro _
        exact Program.Ensures.pure fun s hs => hs.1.mono (Nat.zero_le _)
    · intro _
      exact Program.Ensures.pure fun s hs => hs.1.mono (Nat.zero_le _)

theorem rewriteTail_keeps (extFlag : Nat) (hook : HookRun) (now : Nat) :
    (rewriteTail (c.header u) extFlag hook now).Ensures apply (Keeps c.frame 0) fun _ => Keeps c.frame 0 := by
  have hend : (fixedHeader + 4 + (c.header u).textBytes + (c.header u).payloadBytes) % 2 ^ 64 = c.fileEnd := Nat.mod_eq_of_lt c.fits
  unfold rewriteTail
  rw [hend]
  apply Program.Ensures.ite
  · intro _
    refine Program.Ensures.bind (fseek_keeps c.fileEnd) fun sought => ?_
    apply Program.Ensures.ite
    · intro hsought
      refine Program.Ensures.bind ((ftruncate_keeps c.frame_free).pre fun s hs => hs.2 hsought) fun cut => ?_
      apply Program.Ensures.ite
      · intro _
        exact (putTrailer_keeps extFlag hook now).pre fun s hs => hs.keeps (Nat.le_refl _)
      · intro _
        exact Program.Ensures.pure fun s hs => hs.keeps (Nat.zero_le _)
    · intro _
      exact Program.Ensures.pure fun s hs => hs.1
  · intro _
    exact Program.Ensures.pure fun s hs => hs

theorem rewriteTrailer_keeps (text : Bytes) (hooks : Option Hooks) (now : Nat) :
    (rewriteTrailer text hooks now).Ensures apply (fun s => s.file = c.file u) fun _ s => c.frame.Of s.file := by
  have hkept : ∀ s : Stream, s.file = c.file u → c.frame.Of s.file := fun s hs => by
    rw [hs]
    exact c.frame_file u
  unfold rewriteTrailer
  cases announced hooks text with
  | none => exact Program.Ensures.pure hkept
  | some h =>
    obtain ⟨extFlag, hook⟩ := h
    refine Program.Ensures.bind fopen_reads fun ok => ?_
    apply Program.Ensures.ite
    · intro hok
      refine Program.Ensures.bind ((readHeaderFrom_reads (c.file u)).pre fun s hs => hs.2 hok) fun r => ?_
      cases r with
      | none => exact fclose_keeps.pre fun s hs => keeps_of_file hs.1 hs.2.1
      | some e =>
        refine Program.Ensures.known (c := e = c.header u) ?_ ?_
        · rintro s ⟨-, -, hread⟩
          exact Option.some.inj ((hread e rfl).1.symm.trans (c.readHeader_file u))
        rintro rfl
        refine Program.Ensures.bind ((rewriteTail_keeps extFlag hook now).pre fun s hs => keeps_of_file hs.1 hs.2.1) fun _ => ?_
        exact fclose_keeps
    · intro _
      exact Program.Ensures.pure fun s hs => hkept s hs.1

theorem perform_keeps (upd : Update) : upd.perform.Ensures apply (fun s => c.frame.Of s.file) fun _ s => c.frame.Of s.file := by
  intro s answers hs
  obtain ⟨u, hu⟩ := Checkpoint.file_of_frame hs
  cases upd with
  | touch hits now =>
    refine Program.Ensures.bind (R := fun _ s => c.frame.Of s.file) (touchFile_keeps hits now) (fun _ => ?_) s answers hu
    exact Program.Ensures.pure fun s hs => hs
  | rewrite text hooks now => exact rewriteTrailer_keeps text hooks now s answers hu

theorem performAll_keeps (updates : List Update) :
    (performAll updates).Ensures apply (fun s => c.frame.Of s.file) fun _ s => c.frame.Of s.file := by
  induction updates with
  | nil => exact Program.Ensures.pure fun s hs => hs
  | cons upd updates ih => exact Program.Ensures.bind (perform_keeps upd) fun _ => ih

end

/-! ## What a load takes -/

theorem run_readHeaderFrom (f : Bytes) : ∃ pos, readHeaderFrom.run apply ⟨f, 0, []⟩ [] = (readHeader f, ⟨f, pos, []⟩) ∧
    (fixedHeader + 4 ≤ f.length → pos = fixedHeader + 4) := by
  rw [readHeaderFrom, Program.run_bind_nil, run_fread]
  have hshort : (span f 0 fixedHeader).length = min fixedHeader f.length := by rw [span, List.drop_zero, List.length_take]
  dsimp only
  split_ifs with hlen
  · refine ⟨_, Prod.ext ?_ rfl, fun h => ?_⟩
    · rw [readHeader, if_pos (by omega)]
      rfl
    · omega
  · rw [Program.run_bind_nil, run_fread]
    refine ⟨_, Prod.ext ?_ rfl, fun h => ?_⟩
    · show readHeader (span f 0 fixedHeader ++ span f (0 + (span f 0 fixedHeader).length) 4) = readHeader f
      rw [Nat.zero_add, not_not.mp hlen, readHeader_first]
    · have h4 := length_span (show fixedHeader + 4 ≤ f.length from h)
      show 0 + (span f 0 fixedHeader).length + (span f (0 + (span f 0 fixedHeader).length) 4).length = fixedHeader + 4
      rw [Nat.zero_add, not_not.mp hlen, h4]

/-- The checkpoint is what a load takes from the file, and the scan makes an entry of it. -/
structure Checkpoint.LoadsFrom (c : Checkpoint) (f : Bytes) (hd : Header) : Prop where
  read : (readCheckpoint.run apply ⟨f, 0, []⟩ []).1 = some (hd, c.text, fixedHeader + 4 + c.text.length)
  payload : span f (fixedHeader + 4 + c.text.length) hd.payloadBytes = c.payload
  entry : ∀ path sha, readEntryFile path sha f = some { hd with sha, path, fileSize := f.length }
  fields : hd.modelId = c.modelId.toNat ∧ hd.quantBits = c.quantBits.toNat ∧ hd.reason = c.reason.toNat ∧
    hd.tokens = c.tokens.toNat ∧ hd.ctxSize = c.ctxSize.toNat ∧ hd.createdAt = c.createdAt.toNat ∧
    hd.payloadBytes = c.payload.length

theorem loadsFrom_file (c : Checkpoint) (u : Usage) : c.LoadsFrom (c.file u) (c.header u) where
  read := by
    obtain ⟨pos, hrun, hpos⟩ := run_readHeaderFrom (c.file u)
    have hlen := c.length_file u
    have htext : span (c.file u) (fixedHeader + 4) c.text.length = c.text := by
      rw [Checkpoint.file, Checkpoint.fixed, span_append_right (by rw [length_fillHeader]; omega), length_fillHeader,
        span_append_right (by rw [length_lePut]; omega), length_lePut]
      exact span_append_left rfl
    have htb : (c.header u).textBytes = c.text.length := rfl
    rw [Checkpoint.fileEnd] at hlen
    obtain rfl := hpos (by omega)
    rw [readCheckpoint, Program.run_bind_nil, run_fopen, if_pos rfl, Program.run_bind_nil, hrun, c.readHeader_file u]
    dsimp only
    rw [Program.run_bind_nil, run_fread]
    dsimp only
    rw [htb, htext, if_neg (not_not.mpr rfl)]
    rfl
  payload := by
    rw [Checkpoint.file, Checkpoint.fixed, span_append_right (by rw [length_fillHeader]; omega), length_fillHeader,
      span_append_right (by rw [length_lePut]; omega), length_lePut, span_append_right (by omega)]
    have hoff : fixedHeader + 4 + c.text.length - fixedHeader - 4 - c.text.length = 0 := by omega
    rw [hoff]
    exact span_append_left rfl
  entry path sha := by
    apply readEntryFile_of_header (c.readHeader_file u) _ c.fits
    rw [c.length_file u]
    exact Nat.le_add_right _ _
  fields := ⟨rfl, rfl, rfl, rfl, rfl, rfl, rfl⟩

/-- A file that was written is read as it was written, and in every course of any updates it stays the same
    checkpoint and an entry of the store. -/
theorem updates_keep_checkpoint (c : Checkpoint) (u : Usage) : c.LoadsFrom (c.file u) (c.header u) ∧
    ∀ (updates : List Update) (answers : List Int), ∃ hd, c.LoadsFrom (update (performAll updates) (c.file u) answers) hd := by
  refine ⟨loadsFrom_file c u, fun updates answers => ?_⟩
  have hkept : c.frame.Of (update (performAll updates) (c.file u) answers) :=
    performAll_keeps updates ⟨c.file u, 0, []⟩ answers (c.frame_file u)
  obtain ⟨u', hu'⟩ := Checkpoint.file_of_frame hkept
  rw [hu']
  exact ⟨c.header u', loadsFrom_file c u'⟩

/-! ## Updates in which nothing fails -/

theorem overwrite_fillHeader {modelId quantBits reason extFlags tokens hits ctxSize createdAt lastUsed payloadBytes : Nat} (f : Bytes) :
    overwrite f 0 (fillHeader modelId quantBits reason extFlags tokens hits ctxSize createdAt lastUsed payloadBytes) =
      fillHeader modelId quantBits reason extFlags tokens hits ctxSize createdAt lastUsed payloadBytes ++ f.drop fixedHeader := by
  rw [overwrite_head, length_fillHeader]
  rw [← List.length_pos_iff_ne_nil, length_fillHeader]
  decide

theorem run_putHeader {s : Stream} (hs : s.pending = []) {h : Bytes} (hh : h.length = fixedHeader) :
    (putHeader h).run apply s [] = (true, ⟨s.file, 0, h⟩) := by
  have hfile : overwrite s.file s.pos s.pending = s.file := by rw [overwrite, if_pos hs]
  rw [putHeader, Program.run_bind_nil, run_fseek, hfile]
  dsimp only
  rw [if_pos rfl, Program.run_bind_nil, run_fwrite, hh]
  rfl

theorem update_touchFile (f : Bytes) (hits now : Nat) : update (touchFile hits now) f [] = match readHeader f with
    | none => f
    | some hd => hd.rewrite f hd.extFlags hits now := by
  obtain ⟨pos, hrun, -⟩ := run_readHeaderFrom f
  rw [update, touchFile, Program.run_bind_nil, run_fopen]
  dsimp only
  rw [if_pos rfl, Program.run_bind_nil, hrun]
  cases readHeader f with
  | none => rfl
  | some hd =>
    dsimp only
    rw [Program.run_bind_nil, run_putHeader rfl length_fillHeader, Program.run_bind_nil, run_fclose]
    rw [Program.run_pure]
    dsimp only
    rw [overwrite_fillHeader]
    rfl

/-- A hook that writes its trailer at once and reports it if all of it is taken. -/
def trailerHook (t : Trailer) : HookRun := .fwrite t.data fun n => .done (if n = t.data.length then t.writtenBytes else none)

def streamHooks (h : TrailerHooks) : Hooks := ⟨h.extFlag, h.serializedSize, h.write.map fun write text => trailerHook (write text)⟩

theorem announced_streamHooks (hooks : Option TrailerHooks) (text : Bytes) :
    announced (hooks.map streamHooks) text =
      (rewriteEstimate hooks text).map fun h => (h.extFlag, trailerHook (trailerWrite (some h) text)) := by
  cases hooks with
  | none => rfl
  | some h =>
    obtain ⟨extFlag, size, write⟩ := h
    cases write with
    | none => rfl
    | some write =>
      cases size with
      | none => rfl
      | some size =>
        simp only [announced, rewriteEstimate, streamHooks, trailerSerializedSize, trailerWrite, Option.map_some, Option.bind_eq_bind,
          Option.bind_some]
        cases size (cstr text) with
        | none => rfl
        | some est =>
          simp only [Option.bind_some]
          split_ifs <;> rfl

theorem run_trailerHook (t : Trailer) (s : Stream) :
    (trailerHook t).run.run apply s [] = (t.writtenBytes, { s with pending := s.pending ++ t.data }) := by
  rw [trailerHook, HookRun.run, Program.run_bind_nil, run_fwrite]
  dsimp only
  rw [if_pos rfl]
  rfl

theorem run_putTrailer (hd : Header) (extFlag : Nat) (t : Trailer) (now : Nat) (f : Bytes) : ∃ s,
    (putTrailer hd extFlag (trailerHook t) now).run apply ⟨f, f.length, []⟩ [] = ((), s) ∧
    overwrite s.file s.pos s.pending =
      if t.writtenBytes.any (0 < ·) then hd.rewrite (f ++ t.data) (hd.extFlags ||| extFlag) hd.hits now else f ++ t.data := by
  have hnil : ∀ (g : Bytes) (n : Nat), overwrite g n [] = g := fun g n => if_pos rfl
  rw [putTrailer, Program.run_bind_nil, run_trailerHook]
  cases t.writtenBytes with
  | none => exact ⟨_, rfl, overwrite_end f t.data⟩
  | some written =>
    dsimp only
    rw [List.nil_append, Program.run_bind_nil, run_fflush]
    dsimp only
    rw [if_pos rfl, overwrite_end]
    by_cases hpos : 0 < written
    · rw [if_pos hpos, Program.run_bind_nil, run_putHeader rfl length_fillHeader]
      dsimp only
      rw [if_pos rfl, Program.run_bind_nil, run_fflush, Program.run_pure]
      refine ⟨_, rfl, ?_⟩
      dsimp only
      rw [hnil, overwrite_fillHeader, if_pos (by simpa using hpos)]
      rfl
    · rw [if_neg hpos, Program.run_pure]
      refine ⟨_, rfl, ?_⟩
      dsimp only
      rw [hnil, if_neg (by simpa using hpos)]

theorem update_rewriteTrailer {path sha f : Bytes} {e : Entry} (he : readEntryFile path sha f = some e) (text : Bytes)
    (hooks : Option TrailerHooks) (now : Nat) :
    update (rewriteTrailer text (hooks.map streamHooks) now) f [] = match rewriteEstimate hooks text with
      | none => f
      | some h => rewriteTrailerData h f text now := by
  obtain ⟨pos, hrun, -⟩ := run_readHeaderFrom f
  obtain ⟨hread, -, -, -, hfit⟩ := readEntryFile_eq he
  have hmod := Nat.mod_eq_of_lt (readEntry_max he)
  have hnil : ∀ (g : Bytes) (n : Nat), overwrite g n [] = g := fun g n => if_pos rfl
  have hcut : (resize f (fixedHeader + 4 + e.textBytes + e.payloadBytes)).length =
      fixedHeader + 4 + e.textBytes + e.payloadBytes := by
    rw [resize, List.length_append, List.length_take, List.length_replicate]
    omega
  rw [update, rewriteTrailer, announced_streamHooks]
  cases rewriteEstimate hooks text with
  | none => rfl
  | some h =>
    simp only [Option.map_some]
    rw [Program.run_bind_nil, run_fopen]
    dsimp only
    rw [if_pos rfl, Program.run_bind_nil, hrun, hread, rewriteTrailerData, hread]
    dsimp only
    rw [Program.run_bind_nil, run_fclose, rewriteTail, hmod]
    by_cases hend : fixedHeader + 4 + e.textBytes + e.payloadBytes ≤ 2 ^ 63 - 1
    · obtain ⟨s, hs, hfile⟩ := run_putTrailer e.toHeader h.extFlag (trailerWrite (some h) text) now
        (resize f (fixedHeader + 4 + e.textBytes + e.payloadBytes))
      rw [hcut] at hs
      rw [if_pos hend, if_pos hend, Program.run_bind_nil, run_fseek, hnil]
      dsimp only
      rw [if_pos rfl, Program.run_bind_nil, run_ftruncate]
      dsimp only
      rw [if_pos rfl, hs]
      exact hfile
    · rw [if_neg hend, if_neg hend, Program.run_pure]
      exact hnil f pos

end Ds4.Store.InPlace
