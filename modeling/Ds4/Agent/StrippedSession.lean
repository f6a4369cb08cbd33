import Ds4.Agent.Transcript
import Ds4.Store.KvFile

/- Saved sessions of the agent: a session that is stripped of its payload is loaded by
   tokenizing its rendered text.

   Correspondence (C ↔ Lean):
     `agent_kv_save_path`                      ↔ `kvSavePath`
     `agent_kv_read_text`, `agent_kv_read_title_trailer`, `agent_kv_write_title_trailer`
                                               ↔ `kvReadText`, `kvReadTitleTrailer`, `kvWriteTitleTrailer`
     `agent_session_identity_sha`, `agent_kv_identity_sha` ↔ `sessionIdentitySha`, `kvIdentitySha`
     `agent_worker_strip_session`              ↔ `stripSession`
     `agent_kv_load_path`                      ↔ `kvLoadPath`
   A file is its bytes, a failure is `none`. The payload is what the session staged, and
   whether the session takes the rebuilt tokens is up to it. The search of the file by a
   prefix of its name and failures of the file system are left out.

   What is proved: a stripped session is loaded as the rendered-chat tokens of its text
   (`strip_load`), which have the shape of the transcript exactly when no literal starts in
   ordinary text (`reload_shape_iff`); so the transcript is kept exactly then
   (`control_tokens_iff`). -/
namespace Ds4.Agent
open Bytes Store Marked

/-! ## Files -/

def uint32Max : Nat := 4294967295

/-- `DS4_KVSTORE_EXT_SESSION_TITLE`. -/
def extSessionTitle : Nat := 8

def hasTitle (extFlags : Nat) : Bool := extFlags.testBit 3

/-- The engine of the worker. Its vocabulary is loaded and complete. -/
structure Worker where
  tokens : List Bytes
  merges : List Bytes
  vocab : Vocab
  loaded : vocabLoad tokens merges = some vocab
  complete : Complete tokens merges
  modelId : Nat
  quantBits : Nat

/-- The session to be saved: its live tokens and its staged payload, and what names it. -/
structure SaveArgs where
  live : List Int
  payload : Bytes
  reason : Nat
  title : Option Bytes
  createdAt : Nat
  ctxSize : Nat
  now : Nat

def sessionIdentitySha (title : Bytes) (createdAt : Nat) : Bytes := sha1BytesHex (cstr title ++ lePut 8 createdAt)

def kvWriteTitleTrailer (title : Bytes) : Option Bytes :=
  let title := cstr title
  if uint32Max < title.length then none else some (lePut 4 title.length ++ title)

def kvSavePath (w : Worker) (tokens : List Int) (a : SaveArgs) : Option Bytes :=
  if a.live ≠ tokens then none
  else if w.quantBits ≠ 2 ∧ w.quantBits ≠ 4 then none
  else
    let text := renderTokensText w.vocab tokens
    if uint32Max < text.length then none
    else
      let file (extFlags createdAt : Nat) (trailer : Bytes) : Bytes :=
        fillHeader w.modelId w.quantBits a.reason extFlags tokens.length 0 a.ctxSize createdAt a.now a.payload.length ++
          (lePut 4 text.length ++ (text ++ (a.payload ++ trailer)))
      match a.title with
      | none => some (file 0 a.now [])
      | some title =>
        (kvWriteTitleTrailer title).map (file extSessionTitle (if a.createdAt ≠ 0 then a.createdAt else a.now))

def kvReadText (data : Bytes) (textBytes : Nat) : Option Bytes :=
  let text := span data (fixedHeader + 4) textBytes
  if text.length = textBytes then some text else none

def kvReadTitleTrailer (data : Bytes) (hdr : Header) : Option Bytes :=
  if 2 ^ 63 - 1 < hdr.payloadBytes then none
  else
    let pos := fixedHeader + 4 + hdr.textBytes + hdr.payloadBytes
    let tb := span data pos 4
    if tb.length ≠ 4 then none
    else
      let title := span data (pos + 4) (leGet tb)
      if title.length = leGet tb then some title else none

/-- What a saved session says before its payload: header, text, and title if it has one. -/
structure SavedSession where
  hdr : Header
  text : Bytes
  title : Option Bytes

def kvReadSession (data : Bytes) : Option SavedSession :=
  (readHeader data).bind fun hdr =>
    (kvReadText data hdr.textBytes).bind fun text =>
      if hasTitle hdr.extFlags then (kvReadTitleTrailer data hdr).map fun title => ⟨hdr, text, some title⟩
      else some ⟨hdr, text, none⟩

def kvIdentitySha (s : SavedSession) : Bytes :=
  if hasTitle s.hdr.extFlags then sessionIdentitySha (s.title.getD []) s.hdr.createdAt else sha1BytesHex s.text

/-- The file under the name `sha`, without its payload. -/
def stripSession (w : Worker) (sha data : Bytes) (now : Nat) : Option Bytes :=
  (kvReadSession data).bind fun s =>
    if kvIdentitySha s ≠ sha then none
    else
      let count := (tokenizeRenderedChatVocab w.vocab s.text).length
      let file (trailer : Bytes) : Bytes :=
        fillHeader s.hdr.modelId s.hdr.quantBits s.hdr.reason s.hdr.extFlags count s.hdr.hits s.hdr.ctxSize
          s.hdr.createdAt now 0 ++ (lePut 4 s.hdr.textBytes ++ (s.text ++ trailer))
      if hasTitle s.hdr.extFlags then (kvWriteTitleTrailer (s.title.getD [])).map file else some (file [])

/-- What the session answers: whether it takes rebuilt tokens, and the tokens of a payload. -/
structure Backend where
  sync : List Int → Bool
  loadPayload : Bytes → Option (List Int)

def kvLoadPath (w : Worker) (backend : Backend) (expectedSha expectedText : Option Bytes) (data : Bytes) :
    Option (List Int) :=
  (kvReadSession data).bind fun s =>
    if s.hdr.payloadBytes ≠ 0 ∧ (s.hdr.modelId ≠ w.modelId % 256 ∨ s.hdr.quantBits ≠ w.quantBits % 256) then none
    else if expectedText.any (fun text => text ≠ s.text) then none
    else if expectedSha.any (fun sha => sha ≠ kvIdentitySha s) then none
    else if s.hdr.payloadBytes = 0 then
      let rebuilt := tokenizeRenderedChatVocab w.vocab s.text
      if backend.sync rebuilt then some rebuilt else none
    else
      (backend.loadPayload (data.drop (fixedHeader + 4 + s.hdr.textBytes))).bind fun live =>
        if live.length = s.hdr.tokens then some live else none

/-! ## What is read of a file that was written -/

theorem readHeader_fields {data : Bytes} {hdr : Header} (h : readHeader data = some hdr) :
    hdr.textBytes = field data 48 4 ∧ hdr.payloadBytes = field data 40 8 ∧ field data 8 4 ≠ 0 := by
  rw [readHeader] at h
  iterate 4 obtain ⟨-, h⟩ := Option.ite_none_left_eq_some.mp h
  obtain ⟨⟨htok, -⟩, h⟩ := Option.ite_none_right_eq_some.mp h
  obtain rfl := Option.some.inj h
  exact ⟨rfl, rfl, htok⟩

theorem kvReadSession_eq {data : Bytes} {s : SavedSession} (h : kvReadSession data = some s) :
    readHeader data = some s.hdr ∧ kvReadText data s.hdr.textBytes = some s.text := by
  obtain ⟨hdr, hhdr, h⟩ := Option.bind_eq_some_iff.mp h
  obtain ⟨text, htext, h⟩ := Option.bind_eq_some_iff.mp h
  split at h
  · obtain ⟨title, -, rfl⟩ := Option.map_eq_some_iff.mp h
    exact ⟨hhdr, htext⟩
  · obtain rfl := Option.some.inj h
    exact ⟨hhdr, htext⟩

section
variable {modelId quantBits reason extFlags tokens hits ctxSize createdAt lastUsed payloadBytes : Nat}

theorem header_written {text rest : Bytes} (hsize : text.length ≤ uint32Max) {data : Bytes} {hdr : Header}
    (hd : data = fillHeader modelId quantBits reason extFlags tokens hits ctxSize createdAt lastUsed payloadBytes ++
      (lePut 4 text.length ++ (text ++ rest)))
    (h : readHeader data = some hdr) :
    hdr.textBytes = text.length ∧ hdr.payloadBytes = payloadBytes % 256 ^ 8 ∧ tokens % 256 ^ 4 ≠ 0 := by
  obtain ⟨htext, hpayload, htok⟩ := readHeader_fields h
  obtain ⟨-, ⟨ht8, -⟩, -, -, hp, ht⟩ := span_fillHeader hd
  have hlen : (lePut 4 text.length).length = 4 := by simp
  rw [field, ht8, leGet_lePut] at htok
  rw [htext, hpayload, field, field, hp, ht, List.take_left' hlen, leGet_lePut, leGet_lePut]
  unfold uint32Max at hsize
  exact ⟨Nat.mod_eq_of_lt (by omega), rfl, htok⟩

theorem readText_written {text rest : Bytes} {data : Bytes}
    (hd : data = fillHeader modelId quantBits reason extFlags tokens hits ctxSize createdAt lastUsed payloadBytes ++
      (lePut 4 text.length ++ (text ++ rest))) : kvReadText data text.length = some text := by
  have hspan : span data (fixedHeader + 4) text.length = text := by
    rw [hd, ← List.append_assoc, span_append_right (by simp [fixedHeader]), span]
    simp
  rw [kvReadText, hspan, if_pos rfl]

theorem session_written {text rest : Bytes} (hsize : text.length ≤ uint32Max) {data : Bytes} {s : SavedSession}
    (hd : data = fillHeader modelId quantBits reason extFlags tokens hits ctxSize createdAt lastUsed payloadBytes ++
      (lePut 4 text.length ++ (text ++ rest)))
    (h : kvReadSession data = some s) :
    s.text = text ∧ s.hdr.textBytes = text.length ∧ s.hdr.payloadBytes = payloadBytes % 256 ^ 8 ∧ tokens % 256 ^ 4 ≠ 0 := by
  obtain ⟨hhdr, htext⟩ := kvReadSession_eq h
  obtain ⟨hbytes, hrest⟩ := header_written hsize hd hhdr
  rw [hbytes, readText_written hd] at htext
  exact ⟨(Option.some.inj htext).symm, hbytes, hrest⟩

end

theorem kvSavePath_eq {w : Worker} {ts : List Int} {a : SaveArgs} {file : Bytes} (h : kvSavePath w ts a = some file) :
    (w.quantBits = 2 ∨ w.quantBits = 4) ∧ (renderTokensText w.vocab ts).length ≤ uint32Max ∧ ∃ extFlags createdAt rest,
      file = fillHeader w.modelId w.quantBits a.reason extFlags ts.length 0 a.ctxSize createdAt a.now a.payload.length ++
        (lePut 4 (renderTokensText w.vocab ts).length ++ (renderTokensText w.vocab ts ++ rest)) := by
  unfold kvSavePath at h
  split at h
  · cases h
  split at h
  · cases h
  next hquant =>
  dsimp only at h
  split at h
  · cases h
  · next hsize =>
    refine ⟨by omega, Nat.not_lt.mp hsize, ?_⟩
    split at h
    · obtain rfl := Option.some.inj h
      exact ⟨_, _, _, rfl⟩
    · obtain ⟨trailer, -, rfl⟩ := Option.map_eq_some_iff.mp h
      exact ⟨_, _, _, rfl⟩

theorem stripSession_eq {w : Worker} {sha data : Bytes} {now : Nat} {file : Bytes}
    (h : stripSession w sha data now = some file) : ∃ s, kvReadSession data = some s ∧ ∃ count rest,
      file = fillHeader s.hdr.modelId s.hdr.quantBits s.hdr.reason s.hdr.extFlags count s.hdr.hits s.hdr.ctxSize
        s.hdr.createdAt now 0 ++ (lePut 4 s.hdr.textBytes ++ (s.text ++ rest)) := by
  obtain ⟨s, hs, h⟩ := Option.bind_eq_some_iff.mp h
  refine ⟨s, hs, ?_⟩
  split at h
  · cases h
  dsimp only at h
  split at h
  · obtain ⟨trailer, -, rfl⟩ := Option.map_eq_some_iff.mp h
    exact ⟨_, _, rfl⟩
  · obtain rfl := Option.some.inj h
    exact ⟨_, _, rfl⟩

/-- A session saved, stripped and loaded is the rendered-chat tokens of its text. -/
theorem strip_load {w : Worker} {ts loaded : List Int} {a : SaveArgs} {sha file stripped : Bytes} {now : Nat}
    {backend : Backend} {expectedSha expectedText : Option Bytes} (hsave : kvSavePath w ts a = some file)
    (hstrip : stripSession w sha file now = some stripped)
    (hload : kvLoadPath w backend expectedSha expectedText stripped = some loaded) :
    loaded = tokenizeRenderedChatVocab w.vocab (renderTokensText w.vocab ts) := by
  obtain ⟨-, hsize, extFlags, createdAt, rest, hfile⟩ := kvSavePath_eq hsave
  obtain ⟨s, hs, count, trailer, hstripped⟩ := stripSession_eq hstrip
  obtain ⟨htext, hbytes, -⟩ := session_written hsize hfile hs
  rw [hbytes, htext] at hstripped
  obtain ⟨s', hs', hload⟩ := Option.bind_eq_some_iff.mp hload
  obtain ⟨htext', -, hpayload, -⟩ := session_written hsize hstripped hs'
  rw [hpayload, Nat.zero_mod] at hload
  simp only [ne_eq, not_true_eq_false, false_and, if_false, if_true] at hload
  split at hload
  · cases hload
  split at hload
  · cases hload
  split at hload
  · rw [← Option.some.inj hload, htext']
  · cases hload

/-! ## A run that succeeds -/

/-- The session is one that can be saved and stripped: the quantization is supported, the text fits
    its length field, and the count of tokens in the header is not zero. -/
def Saveable (w : Worker) (ts : List Int) : Prop :=
  (w.quantBits = 2 ∨ w.quantBits = 4) ∧ (renderTokensText w.vocab ts).length ≤ uint32Max ∧ ts.length % 2 ^ 32 ≠ 0

theorem saveable_of_strip {w : Worker} {ts : List Int} {a : SaveArgs} {sha file stripped : Bytes} {now : Nat}
    (hsave : kvSavePath w ts a = some file) (hstrip : stripSession w sha file now = some stripped) : Saveable w ts := by
  obtain ⟨hquant, hsize, extFlags, createdAt, rest, hfile⟩ := kvSavePath_eq hsave
  obtain ⟨s, hs, -⟩ := stripSession_eq hstrip
  obtain ⟨-, -, -, htok⟩ := session_written hsize hfile hs
  exact ⟨hquant, hsize, htok⟩

theorem hasTitle_ext : hasTitle extSessionTitle = true := by decide

theorem kvIdentitySha_titled {s : SavedSession} (h : s.hdr.extFlags = extSessionTitle) :
    kvIdentitySha s = sessionIdentitySha (s.title.getD []) s.hdr.createdAt := by
  rw [kvIdentitySha, h, if_pos hasTitle_ext]

/-- A titled file as the program writes it is read back; its title is empty. -/
theorem read_titled (modelId hits ctxSize lastUsed : Nat) (payload : Bytes) {quantBits tokens : Nat} {text : Bytes}
    (hsize : text.length ≤ uint32Max) (htok : tokens % 2 ^ 32 ≠ 0) (hq : quantBits = 2 ∨ quantBits = 4)
    (hpayload : payload.length < 2 ^ 63) :
    kvReadSession (fillHeader modelId quantBits reasonAgentSession extSessionTitle tokens hits ctxSize 1 lastUsed
      payload.length ++ (lePut 4 text.length ++ (text ++ (payload ++ lePut 4 0)))) =
      some ⟨{ quantBits, reason := reasonAgentSession, modelId := modelId % 256, tokens := tokens % 2 ^ 32
              hits := hits % 2 ^ 32, ctxSize := ctxSize % 2 ^ 32, extFlags := extSessionTitle, createdAt := 1
              lastUsed := lastUsed % 2 ^ 64, payloadBytes := payload.length, textBytes := text.length }, text, some []⟩ := by
  have hbytes : leGet ((lePut 4 text.length ++ (text ++ (payload ++ lePut 4 0))).take 4) = text.length := by
    unfold uint32Max at hsize
    rw [List.take_left' (by simp), leGet_lePut]
    exact Nat.mod_eq_of_lt (by omega)
  have htitle : ∀ hd : Header, hd.textBytes = text.length → hd.payloadBytes = payload.length →
      kvReadTitleTrailer (fillHeader modelId quantBits reasonAgentSession extSessionTitle tokens hits ctxSize 1 lastUsed
        payload.length ++ (lePut 4 text.length ++ (text ++ (payload ++ lePut 4 0)))) hd = some [] := by
    intro hd ht hp
    have hzero : leGet (lePut 4 0) = 0 := by decide
    have hspan : span (fillHeader modelId quantBits reasonAgentSession extSessionTitle tokens hits ctxSize 1 lastUsed
        payload.length ++ (lePut 4 text.length ++ (text ++ (payload ++ lePut 4 0))))
        (fixedHeader + 4 + text.length + payload.length) 4 = lePut 4 0 := by
      have hfront : (fillHeader modelId quantBits reasonAgentSession extSessionTitle tokens hits ctxSize 1 lastUsed
          payload.length ++ lePut 4 text.length ++ text ++ payload).length =
          fixedHeader + 4 + text.length + payload.length := by simp [Nat.add_assoc]
      simp only [← List.append_assoc]
      rw [span_append_right (Nat.le_of_eq hfront), hfront, Nat.sub_self, span, List.drop_zero]
      rfl
    rw [kvReadTitleTrailer, ht, hp, if_neg (by omega)]
    dsimp only
    rw [hspan, hzero, if_neg (by simp), span_zero]
    rfl
  have hflag : extSessionTitle % 256 = extSessionTitle := rfl
  rw [kvReadSession, readHeader_fill (by simp) htok hq (Nat.le_refl _), hbytes, hflag,
    Nat.mod_eq_of_lt (show payload.length < 2 ^ 64 by omega)]
  rw [Option.bind_some, readText_written rfl, Option.bind_some, if_pos hasTitle_ext, htitle _ rfl rfl]
  rfl

theorem rebuilt_count {w : Worker} {text : Bytes} (hsize : text.length ≤ uint32Max) (hne : cstr text ≠ []) :
    (tokenizeRenderedChatVocab w.vocab text).length % 2 ^ 32 ≠ 0 := by
  have hl := vocabLoad_loaded w.loaded
  have hcut : tokenizeRenderedChatVocab w.vocab (cstr text) = tokenizeRenderedChatVocab w.vocab text := by
    rw [tokenizeRenderedChatVocab, tokenizeRenderedChatVocab, cstr_cstr]
  have htext := hl.tokenizeRendered_text w.complete (cstr_no_nul text)
  rw [hcut] at htext
  have hle := length_le_text (hl.scanRendered_ne_nil w.complete (cstr text).length [] (cstr text))
  have hsub : (cstr text).length ≤ text.length := (List.takeWhile_prefix _).length_le
  rw [← tokenizeRenderedChatVocab, htext] at hle
  have hpos : 0 < (tokenizeRenderedChatVocab w.vocab text).length := by
    rw [List.length_pos_iff]
    intro h
    rw [h] at htext
    exact hne htext.symm
  unfold uint32Max at hsize
  rw [Nat.mod_eq_of_lt (by omega)]
  omega

theorem strip_load_succeeds {w : Worker} {ts : List Int} (h : Saveable w ts) (hne : cstr (renderTokensText w.vocab ts) ≠ []) :
    ∃ a sha file stripped now backend, kvSavePath w ts a = some file ∧ stripSession w sha file now = some stripped ∧
      kvLoadPath w backend (some sha) none stripped = some (tokenizeRenderedChatVocab w.vocab (renderTokensText w.vocab ts)) := by
  obtain ⟨hq, hsize, htok⟩ := h
  have hcount := rebuilt_count (w := w) hsize hne
  have hquant : ¬(w.quantBits ≠ 2 ∧ w.quantBits ≠ 4) := by omega
  have htrailer : kvWriteTitleTrailer [] = some (lePut 4 0) := by decide
  let text := renderTokensText w.vocab ts
  refine ⟨⟨ts, [0], reasonAgentSession, some [], 1, 0, 0⟩, sessionIdentitySha [] 1,
    fillHeader w.modelId w.quantBits reasonAgentSession extSessionTitle ts.length 0 0 1 0 1 ++
      (lePut 4 text.length ++ (text ++ ([0] ++ lePut 4 0))),
    fillHeader (w.modelId % 256) w.quantBits reasonAgentSession extSessionTitle
      (tokenizeRenderedChatVocab w.vocab text).length 0 0 1 0 0 ++ (lePut 4 text.length ++ (text ++ ([] ++ lePut 4 0))),
    0, ⟨fun _ => true, fun _ => none⟩, ?_, ?_, ?_⟩
  · rw [kvSavePath, if_neg (by simp), if_neg hquant]
    dsimp only
    rw [if_neg (Nat.not_lt.mpr hsize), htrailer]
    rfl
  · have hread := read_titled w.modelId 0 0 0 [0] hsize htok hq (by decide)
    rw [stripSession, show ([0] : Bytes).length = 1 from rfl] at *
    rw [hread, Option.bind_some, kvIdentitySha_titled rfl, Option.getD_some, if_neg (not_not_intro rfl)]
    dsimp only
    rw [if_pos hasTitle_ext, htrailer]
    rfl
  · have hread := read_titled (w.modelId % 256) 0 0 0 [] hsize hcount hq (by decide)
    rw [List.length_nil] at hread
    rw [kvLoadPath, hread, Option.bind_some, kvIdentitySha_titled rfl]
    simp

/-! ## Shapes of reloaded tokens -/

/-- The text has no NUL, and no literal of a special token starts at one of its ordinary bytes. -/
def Ordinary (v : Vocab) (items : Items) : Prop :=
  (0 : UInt8) ∉ spell (ds4TokenText v) items ∧ Quiet (ds4TokenText v) (specialTokenAt v) items

section
variable {tokens merges : List Bytes} {v : Vocab}

theorem specialTokenAt_finds (hl : Loaded tokens merges v) : Finds (ds4TokenText v) (specialTokenAt v) := by
  intro s text m hf
  have hmem := List.mem_of_find?_eq_some hf
  have hstart : startsWith text s = true := by simpa using List.find?_some hf
  exact ⟨List.length_pos_iff.mp (specialTexts_spec text (mem_specialTexts hmem)).1, (hl.special_text hmem).symm,
    List.isPrefixOf_iff_prefix.mp hstart⟩

theorem shape_marks (hl : Loaded tokens merges v) (ts : List Int) :
    Marks (ds4TokenText v) (specialTokenAt v) (shape v ts) := by
  intro m hm
  obtain ⟨t, -, ht⟩ := List.mem_flatMap.mp hm
  split at ht
  · next hctl =>
    obtain ⟨sp, hsp, rfl⟩ := isControl_iff.mp hctl
    obtain rfl : m = sp.2 := by simpa using ht
    rw [hl.special_text hsp]
    exact ⟨List.length_pos_iff.mp (specialTexts_spec sp.1 (mem_specialTexts hsp)).1,
      hl.specialTokenAt_literal hsp⟩
  · simp [plainItems] at ht

/-- The text of tokens gives their shape again exactly when it is ordinary between the control tokens. -/
theorem reload_shape_iff (hl : Loaded tokens merges v) (hc : Complete tokens merges) (ts : List Int) :
    shape v (tokenizeRenderedChatVocab v (renderTokensText v ts)) = shape v ts ↔ Ordinary v (shape v ts) := by
  rw [shape_rendered hl hc, renderedItems, Ordinary, ← render_shape]
  by_cases hnul : (0 : UInt8) ∈ spell (ds4TokenText v) (shape v ts)
  · -- the text is cut at the NUL, and the cut text spells less
    refine ⟨fun h => ?_, fun h => absurd hnul h.1⟩
    have hspell := spell_scan (specialTokenAt_finds hl) _ (cstr (spell (ds4TokenText v) (shape v ts))) (Nat.le_refl _)
    rw [h] at hspell
    rw [hspell] at hnul
    exact absurd hnul (cstr_no_nul _)
  · rw [cstr_of_no_nul hnul, and_iff_right hnul]
    exact scan_spell_iff _ _ (shape_marks hl ts) (Nat.le_refl _)

end

/-! ## The transcript -/

/-- What is to hold of a transcript: its control tokens are those its entries push, a tool message has one
    closing sentinel, and a session saved, stripped and loaded has its shape. -/
structure ControlTokensKept (w : Worker) (t : List Entry) : Prop where
  pushed : shape w.vocab (transcriptTokens w.vocab t) = transcriptItems w.vocab t
  sentinel : ∀ role content, .message (some role) content ∈ t → isToolRole (cstr role) →
    OneSentinel (renderTokensText w.vocab (chatAppendMessage w.vocab (some role) content))
  reload : ∀ (a : SaveArgs) (sha file stripped : Bytes) (now : Nat) (backend : Backend)
    (expectedSha expectedText : Option Bytes) (loaded : List Int),
    kvSavePath w (transcriptTokens w.vocab t) a = some file → stripSession w sha file now = some stripped →
    kvLoadPath w backend expectedSha expectedText stripped = some loaded →
    shape w.vocab loaded = shape w.vocab (transcriptTokens w.vocab t)

theorem transcript_starts (w : Worker) (t : List Entry) :
    cstr (renderTokensText w.vocab (transcriptTokens w.vocab t)) ≠ [] := by
  have hl := vocabLoad_loaded w.loaded
  have hbos : ds4TokenText w.vocab w.vocab.bosId = utf8 "<｜begin▁of▁sentence｜>" :=
    hl.special_text (show (utf8 "<｜begin▁of▁sentence｜>", w.vocab.bosId) ∈ _ by simp [specials])
  have hno : (0 : UInt8) ∉ utf8 "<｜begin▁of▁sentence｜>" := by decide
  rw [transcriptTokens, chatBegin, renderTokensText, List.flatMap_append, List.flatMap_singleton, hbos, cstr_append hno]
  intro h
  exact absurd (List.append_eq_nil_iff.mp h).1 (by decide)

/-- **Control tokens of a transcript.** The transcript keeps its control tokens, through a saved and stripped
    session, exactly when the session cannot be saved or no literal of a special token starts in ordinary text. -/
theorem control_tokens_iff (w : Worker) (t : List Entry) : ControlTokensKept w t ↔
    (Saveable w (transcriptTokens w.vocab t) → Ordinary w.vocab (transcriptItems w.vocab t)) := by
  have hl := vocabLoad_loaded w.loaded
  have hshape := shape_transcript hl w.complete t
  have hreload := reload_shape_iff hl w.complete (transcriptTokens w.vocab t)
  rw [hshape] at hreload
  constructor
  · intro h hsave
    obtain ⟨a, sha, file, stripped, now, backend, h1, h2, h3⟩ := strip_load_succeeds hsave (transcript_starts w t)
    rw [← hreload, h.reload a sha file stripped now backend (some sha) none _ h1 h2 h3, hshape]
  · intro h
    refine ⟨hshape, fun role content _ hrole => toolMessage_sentinel hl w.complete hrole content, ?_⟩
    intro a sha file stripped now backend expectedSha expectedText loaded h1 h2 h3
    rw [strip_load h1 h2 h3, hreload.mpr (h (saveable_of_strip h1 h2)), hshape]

def thinkingUser : List Entry := [.message (some (utf8 "user")) (some (utf8 "<think>"))]

/-- The role is none of the others. -/
theorem user_role : cstr (utf8 "user") = utf8 "user" ∧ ¬(utf8 "user" = utf8 "system" ∨ utf8 "user" = utf8 "developer") ∧
    utf8 "user" ≠ utf8 "assistant" ∧ ¬isToolRole (utf8 "user") := by decide

theorem thinkingUser_tokens (v : Vocab) :
    transcriptTokens v thinkingUser = v.bosId :: v.userId :: bpeTokenizeText v (utf8 "<think>") := by
  obtain ⟨hrole, hsystem, hassistant, htool⟩ := user_role
  have htext : cstr (utf8 "<think>") = utf8 "<think>" := by decide
  rw [transcriptTokens, thinkingUser, List.flatMap_singleton, Entry.tokens, chatAppendMessage, Option.getD_some,
    Option.getD_some, hrole, htext, if_neg hsystem, if_neg hassistant, if_neg htool]
  rfl

theorem thinkingUser_items (v : Vocab) :
    transcriptItems v thinkingUser = .inl v.bosId :: .inl v.userId :: plainItems (utf8 "<think>") := by
  obtain ⟨hrole, hsystem, hassistant, htool⟩ := user_role
  have htext : cstr (utf8 "<think>") = utf8 "<think>" := by decide
  rw [transcriptItems, thinkingUser, List.flatMap_singleton, Entry.items, messageItems, Option.getD_some, Option.getD_some,
    hrole, htext, if_neg hsystem, if_neg hassistant, if_neg htool]

theorem thinkingUser_saveable {w : Worker} (hq : w.quantBits = 2) : Saveable w (transcriptTokens w.vocab thinkingUser) := by
  have hl := vocabLoad_loaded w.loaded
  have hshape := shape_transcript hl w.complete thinkingUser
  have hbos : ds4TokenText w.vocab w.vocab.bosId = utf8 "<｜begin▁of▁sentence｜>" :=
    hl.special_text (show (utf8 "<｜begin▁of▁sentence｜>", w.vocab.bosId) ∈ _ by simp [specials])
  have huser : ds4TokenText w.vocab w.vocab.userId = utf8 "<｜User｜>" :=
    hl.special_text (show (utf8 "<｜User｜>", w.vocab.userId) ∈ _ by simp [specials])
  have htext : (renderTokensText w.vocab (transcriptTokens w.vocab thinkingUser)).length ≤ 1000 := by
    rw [← render_shape, hshape, thinkingUser_items, spell_inl, spell_inl, hbos, huser, plainItems, spell_letters]
    decide
  have hne : ∀ t ∈ transcriptTokens w.vocab thinkingUser, ds4TokenText w.vocab t ≠ [] := by
    intro t ht
    rw [thinkingUser_tokens] at ht
    rcases List.mem_cons.mp ht with rfl | ht
    · rw [hbos]
      decide
    rcases List.mem_cons.mp ht with rfl | ht
    · rw [huser]
      decide
    · exact (hl.bpeTokenizeText_plain w.complete _ t ht).2
  have hle := length_le_text hne
  have hpos : 0 < (transcriptTokens w.vocab thinkingUser).length := by rw [thinkingUser_tokens]; simp
  refine ⟨.inl hq, Nat.le_trans htext (by decide), ?_⟩
  rw [← renderTokensText] at hle
  omega

/-- A user who writes a thinking marker gets one, once the session was stripped. -/
theorem control_tokens_fails : ∃ w : Worker, w.tokens = sampleTokens ∧ w.merges = sampleMerges ∧
    ¬ControlTokensKept w [.message (some (utf8 "user")) (some (utf8 "<think>"))] := by
  obtain ⟨v, hv⟩ := @vocabLoad_isSome sampleTokens sampleMerges
    (by rw [sampleTokens]; simp [specialTexts, int32Max])
    (fun t ht => List.mem_append_left _ (List.mem_append_right _ ht))
  refine ⟨⟨sampleTokens, sampleMerges, v, hv, sample_complete, 0, 2⟩, rfl, rfl, fun h => ?_⟩
  have hl := vocabLoad_loaded hv
  obtain ⟨a, sha, file, stripped, now, backend, h1, h2, h3⟩ :=
    strip_load_succeeds (thinkingUser_saveable (w := ⟨_, _, v, hv, sample_complete, 0, 2⟩) rfl) (transcript_starts _ _)
  have hkept := h.reload a sha file stripped now backend (some sha) none _ h1 h2 h3
  have hquiet : Quiet _ _ (shape v (transcriptTokens v thinkingUser)) := ((reload_shape_iff hl sample_complete _).mp hkept).2
  rw [shape_transcript hl sample_complete, thinkingUser_items] at hquiet
  have hfirst : utf8 "<think>" = 60 :: utf8 "think>" := by decide
  have hnone := hquiet [.inl v.bosId, .inl v.userId] 60 (plainItems (utf8 "think>")) (by rw [hfirst]; rfl)
  rw [plainItems, spell_letters, ← hfirst] at hnone
  have hfound := hl.specialTokenAt_literal (show (utf8 "<think>", v.thinkStartId) ∈ _ by simp [specials]) []
  rw [List.append_nil, hnone] at hfound
  cases hfound

end Ds4.Agent
