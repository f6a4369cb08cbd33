import Ds4.Server.ResponsesStream

/- What a Responses client can rely on over a whole stream.

   PROVED here (`responses_lifecycle`, `responses_consistent`): the events are
   numbered 0, 1, 2, …; every item is announced at the next index and closed once
   later; the last event lists the closed items in their order; and, where no byte
   shown is a NUL, the deltas of a text put together are its text at the end. A
   NUL cuts the copy the JSON writer reads, which is not the same cut for the
   parts of a text and for the whole (`nul_splits_text`). -/
namespace Ds4.Server
open Bytes EventLog

/-! ## Reading a log -/

def StreamEvent.addedRef : StreamEvent → Option ItemRef
  | .outputItemAdded index item => some (index, item.id)
  | _ => none

def StreamEvent.doneItem : StreamEvent → Option (Int × OutputItem)
  | .outputItemDone index item => some (index, item)
  | _ => none

def itemRef (d : Int × OutputItem) : ItemRef := (d.1, d.2.id)

def StreamEvent.doneRef (e : StreamEvent) : Option ItemRef := e.doneItem.map itemRef

def StreamEvent.summaryDelta : StreamEvent → Option (ItemRef × Bytes)
  | .summaryTextDelta ref delta => some (ref, delta)
  | _ => none

def StreamEvent.summaryDone : StreamEvent → Option (ItemRef × Bytes)
  | .summaryTextDone ref text => some (ref, text)
  | _ => none

def StreamEvent.textDelta : StreamEvent → Option (ItemRef × Bytes)
  | .outputTextDelta ref delta => some (ref, delta)
  | _ => none

def StreamEvent.textDone : StreamEvent → Option (ItemRef × Bytes)
  | .outputTextDone ref text => some (ref, text)
  | _ => none

def StreamEvent.terminalOutput : StreamEvent → Option (List OutputItem)
  | .terminal _ _ _ _ output _ => some output
  | _ => none

def OutputItem.summary : OutputItem → Option (Bytes × Bytes)
  | .reasoning id _ summary => some (id, summary)
  | _ => none

def OutputItem.text : OutputItem → Option (Bytes × Bytes)
  | .message id _ text => text.map fun t => (id, t)
  | _ => none

/-- The deltas of a text, where there are any, are all of one item, whose text at its
    closing and in the last event is what they make together. -/
def Accumulates (deltas dones : List (ItemRef × Bytes)) (listed : List (Bytes × Bytes)) : Prop :=
  (deltas = [] ∧ dones = [] ∧ listed = []) ∨
    ∃ ref text, (∀ d ∈ deltas, d.1 = ref) ∧ (deltas.map Prod.snd).flatten = text ∧ dones = [(ref, text)] ∧
      listed = [(ref.2, text)]

/-- What holds of the events whatever the texts are. -/
structure Lifecycle (sent : List SentEvent) (log : List StreamEvent) (output : List OutputItem) : Prop where
  events : sent.map SentEvent.event = log
  numbered : sent.map SentEvent.sequence = (List.range sent.length).map some
  indexes : (log.filterMap StreamEvent.addedRef).map Prod.fst =
    (List.range (log.filterMap StreamEvent.addedRef).length).map Int.ofNat
  closed_once : ∀ p e q ref, log = p ++ e :: q → e.addedRef = some ref → (q.filterMap StreamEvent.doneRef).count ref = 1
  closed_only : log.filterMap StreamEvent.doneRef = log.filterMap StreamEvent.addedRef
  last : ∃ before e, log = before ++ [e] ∧ before.filterMap StreamEvent.terminalOutput = [] ∧
    e.terminalOutput = some output
  output_added : output.map OutputItem.id = (log.filterMap StreamEvent.addedRef).map Prod.snd
  output_done : output = (log.filterMap StreamEvent.doneItem).map Prod.snd

/-- A stream that agrees with itself. -/
def SelfConsistent (sent : List SentEvent) : Prop :=
  ∃ log output, Lifecycle sent log output ∧
    Accumulates (log.filterMap StreamEvent.textDelta) (log.filterMap StreamEvent.textDone) (output.filterMap OutputItem.text) ∧
    Accumulates (log.filterMap StreamEvent.summaryDelta) (log.filterMap StreamEvent.summaryDone)
      (output.filterMap OutputItem.summary)

/-! ## Every event is numbered -/

theorem skipQuoted_plain : ∀ {t : Bytes} (r : Bytes), (∀ b ∈ t, b ≠ 34 ∧ b ≠ 92) → skipQuoted (t ++ 34 :: r) = (t, 34 :: r)
  | [], _, _ => rfl
  | c :: t, r, h => by
    obtain ⟨⟨h34, h92⟩, ht⟩ := List.forall_mem_cons.mp h
    have ih := skipQuoted_plain r ht
    rw [List.cons_append, skipQuoted.eq_4 c (t ++ 34 :: r) (fun e => h34 e) (fun d r' hc _ => h92 hc), ih]

/-- A type's name needs no escape. -/
theorem type_plain (e : StreamEvent) : ∀ b ∈ utf8 e.type, b ≠ 0 ∧ b ≠ 34 ∧ b ≠ 92 := by
  cases e with
  | terminal _ _ _ finish =>
    simp only [StreamEvent.type, terminalType]
    split_ifs <;> decide +kernel
  | _ => simp only [StreamEvent.type]; decide +kernel

theorem json_head (orders : List ToolSchemaOrder) (e : StreamEvent) :
    ∃ rest, e.json orders = typeHead ++ utf8 e.type ++ 34 :: rest := by
  have hhead : typeHead = 123 :: (jsonQuoted (utf8 "type") ++ [58, 34]) := by decide +kernel
  have hjoin : ∀ x : Bytes, ∀ xs : List Bytes, ∃ y, [44].intercalate (x :: xs) = x ++ y := by
    intro x xs
    cases xs with
    | nil => exact ⟨[], by simp⟩
    | cons y ys => exact ⟨_, by rw [List.intercalate_cons_cons, List.append_assoc]⟩
  obtain ⟨y, hy⟩ := hjoin (jsonField ("type", jsonQuoted (utf8 e.type))) ((e.fields orders).map jsonField)
  refine ⟨y ++ [125], ?_⟩
  rw [StreamEvent.json, jsonObject, List.map_cons, hy, hhead, jsonField]
  simp [jsonQuoted]

theorem spliceSequence_json (orders : List ToolSchemaOrder) (e : StreamEvent) (n : Nat) :
    ∃ wire, spliceSequence (cstr (e.json orders)) n = some wire := by
  obtain ⟨rest, hjson⟩ := json_head orders e
  have hplain := type_plain e
  have hnul : (0 : UInt8) ∉ typeHead ++ utf8 e.type ++ [34] := by
    simp only [List.mem_append, List.mem_singleton, not_or]
    exact ⟨⟨by decide +kernel, fun h => (hplain 0 h).1 rfl⟩, by decide⟩
  have hbody : cstr (e.json orders) = typeHead ++ (utf8 e.type ++ 34 :: cstr rest) := by
    rw [hjson, List.append_cons, cstr_append hnul]
    simp
  rw [hbody, spliceSequence, if_pos (by simp [startsWith]), List.drop_left,
    skipQuoted_plain _ fun b hb => (hplain b hb).2]
  exact ⟨_, rfl⟩

/-- The event as it goes out with a number. -/
def numberedEvent (orders : List ToolSchemaOrder) (e : StreamEvent) (n : Nat) : SentEvent :=
  ⟨e, some n, sseFrame ((spliceSequence (cstr (e.json orders)) n).getD [])⟩

@[simp] theorem numberedEvent_event (orders : List ToolSchemaOrder) (e : StreamEvent) (n : Nat) :
    (numberedEvent orders e n).event = e := rfl

@[simp] theorem numberedEvent_sequence (orders : List ToolSchemaOrder) (e : StreamEvent) (n : Nat) :
    (numberedEvent orders e n).sequence = some n := rfl

theorem emitEvent_eq (orders : List ToolSchemaOrder) (e : StreamEvent) (c : ResponsesConn) :
    responsesSseEmitEvent orders e c =
      ⟨{ c.st with sequence := c.st.sequence + 1 }, c.sent ++ [numberedEvent orders e c.st.sequence]⟩ := by
  obtain ⟨wire, hw⟩ := spliceSequence_json orders e c.st.sequence
  simp only [responsesSseEmitEvent, numberedEvent, hw, Option.getD_some]

/-! ## The log of an item's text -/

/-- The log of one item that shows a text: its deltas while it is open, its text once it
    is closed. -/
structure ItemLog (opened closed : Bool) (ref : ItemRef) (text : Bytes) (deltas dones : List (ItemRef × Bytes)) : Prop where
  refs : ∀ d ∈ deltas, d.1 = ref
  any : deltas = [] ↔ opened = false
  dones : dones = if closed then [(ref, shown text)] else []

/-- The deltas make the text, which has no NUL. -/
structure Mirrors (text : Bytes) (deltas : List (ItemRef × Bytes)) : Prop where
  clean : (0 : UInt8) ∉ text
  whole : (deltas.map Prod.snd).flatten = text

theorem Mirrors.push {text more : Bytes} {deltas : List (ItemRef × Bytes)} (h : Mirrors text deltas) (ref : ItemRef)
    (hmore : (0 : UInt8) ∉ more) : Mirrors (text ++ more) (deltas ++ [(ref, shown more)]) := by
  refine ⟨?_, ?_⟩
  · rw [List.mem_append, not_or]
    exact ⟨h.clean, hmore⟩
  · simp [h.whole, shown, cstr_of_no_nul hmore]

theorem ItemLog.accumulates {opened : Bool} {ref : ItemRef} {text : Bytes} {deltas dones : List (ItemRef × Bytes)}
    (h : ItemLog opened opened ref text deltas dones) (hm : Mirrors text deltas) :
    Accumulates deltas dones (if opened then [(ref.2, shown text)] else []) := by
  have hdones := h.dones
  cases opened with
  | false => exact .inl ⟨h.any.mpr rfl, hdones, rfl⟩
  | true =>
    rw [shown, cstr_of_no_nul hm.clean] at hdones ⊢
    exact .inr ⟨ref, text, h.refs, hm.whole, hdones, rfl⟩

/-! ## The state against the log -/

def ResponsesConn.log (c : ResponsesConn) : List StreamEvent := c.sent.map SentEvent.event

/-- The items of the text that are announced. -/
def ResponsesStream.openRefs (st : ResponsesStream) : List ItemRef :=
  (if st.reasoningItemOpened then [st.reasoningRef] else []) ++ if st.messageItemOpened then [st.messageRef] else []

/-- The items of the text that are closed. -/
def ResponsesStream.closedItems (finish : Bytes) (st : ResponsesStream) : List (Int × OutputItem) :=
  (if st.reasoningItemClosed then [(st.reasoningIndex, reasoningItem (reasoningStatus st) st)] else []) ++
    if st.messageItemClosed then [(st.messageIndex, messageItem (responsesItemStatusForFinish finish) st)] else []

/-- `n` events are sent, numbered from 0. -/
structure Counted (n : Nat) (sent : List SentEvent) : Prop where
  numbered : Numbered SentEvent.sequence sent
  next : n = sent.length

/-- The state and the log before the calls. -/
structure Aligned (finish : Bytes) (st : ResponsesStream) (log : List StreamEvent) : Prop where
  opensFirst : OpensFirst StreamEvent.addedRef StreamEvent.doneRef log
  added : log.filterMap StreamEvent.addedRef = st.openRefs
  done : log.filterMap StreamEvent.doneItem = st.closedItems finish
  terminal : log.filterMap StreamEvent.terminalOutput = []
  summary : ItemLog st.reasoningItemOpened st.reasoningItemClosed st.reasoningRef st.reasoningText
    (log.filterMap StreamEvent.summaryDelta) (log.filterMap StreamEvent.summaryDone)
  text : ItemLog st.messageItemOpened st.messageItemClosed st.messageRef st.messageText
    (log.filterMap StreamEvent.textDelta) (log.filterMap StreamEvent.textDone)
  reasoningAt : st.reasoningItemOpened = true → st.reasoningIndex = 0
  messageAt : st.messageItemOpened = true → st.messageIndex = if st.reasoningItemOpened then 1 else 0
  next : st.nextOutputIndex = st.openRefs.length
  summaryStarted : st.reasoningSummaryStarted = st.reasoningItemOpened
  textStarted : st.messageTextPartOpen = st.messageItemOpened
  reasoningAny : st.reasoningEmittedAny = st.reasoningItemOpened
  messageAny : st.messageEmittedAny = st.messageItemOpened
  thinking : st.mode = .thinking → st.messageItemOpened = false
  messageLast : st.messageItemClosed = true → st.messageItemOpened = true

section
variable (orders : List ToolSchemaOrder) (e : StreamEvent) (text : Bytes) {c : ResponsesConn} {finish : Bytes}

@[simp] theorem log_emit : (responsesSseEmitEvent orders e c).log = c.log ++ [e] := by
  simp [ResponsesConn.log, emitEvent_eq]

@[simp] theorem st_emit :
    (responsesSseEmitEvent orders e c).st = { c.st with sequence := c.st.sequence + 1 } := by rw [emitEvent_eq]

@[simp] theorem log_st (st : ResponsesStream) : (ResponsesConn.mk st c.sent).log = c.log := rfl

theorem Counted.push {n : Nat} {sent : List SentEvent} (h : Counted n sent) :
    Counted (n + 1) (sent ++ [numberedEvent orders e n]) := by
  refine ⟨h.numbered.push ?_, ?_⟩
  · rw [numberedEvent_sequence, h.next]
  · rw [List.length_append, List.length_singleton, h.next]

theorem Counted.emit (h : Counted c.st.sequence c.sent) :
    Counted (responsesSseEmitEvent orders e c).st.sequence (responsesSseEmitEvent orders e c).sent := by
  rw [emitEvent_eq]
  exact h.push orders e

/-! ### Showing a text -/

theorem Counted.emitReasoning (h : Counted c.st.sequence c.sent) :
    Counted (emitReasoning orders text c).st.sequence (emitReasoning orders text c).sent := by
  have hopen : Counted (openReasoning orders c).st.sequence (openReasoning orders c).sent := by
    simp only [openReasoning, emitEvent_eq]
    split
    · exact h
    · exact h.push orders _
  have hstart : Counted (startSummary orders (openReasoning orders c)).st.sequence
      (startSummary orders (openReasoning orders c)).sent := by
    generalize openReasoning orders c = c at hopen
    simp only [startSummary, emitEvent_eq]
    split
    · exact hopen
    · exact hopen.push orders _
  rw [Server.emitReasoning]
  generalize startSummary orders (openReasoning orders c) = c at hstart
  simp only [emitEvent_eq]
  exact hstart.push orders _

theorem Counted.emitMessage (h : Counted c.st.sequence c.sent) :
    Counted (emitMessage orders text c).st.sequence (emitMessage orders text c).sent := by
  have hopen : Counted (openMessage orders c).st.sequence (openMessage orders c).sent := by
    simp only [openMessage, emitEvent_eq]
    split
    · exact h
    · exact h.push orders _
  have hstart : Counted (startTextPart orders (openMessage orders c)).st.sequence
      (startTextPart orders (openMessage orders c)).sent := by
    generalize openMessage orders c = c at hopen
    simp only [startTextPart, emitEvent_eq]
    split
    · exact hopen
    · exact hopen.push orders _
  rw [Server.emitMessage]
  generalize startTextPart orders (openMessage orders c) = c at hstart
  simp only [emitEvent_eq]
  exact hstart.push orders _

/-- One more delta. -/
theorem ItemLog.delta {opened : Bool} {ref : ItemRef} {before : Bytes} {deltas dones : List (ItemRef × Bytes)}
    (h : ItemLog opened false ref before deltas dones) :
    ItemLog true false ref (before ++ text) (deltas ++ [(ref, shown text)]) dones := by
  refine ⟨?_, by simp, h.dones⟩
  intro d hd
  rcases List.mem_append.mp hd with hd | hd
  · exact h.refs d hd
  · rw [List.mem_singleton.mp hd]

theorem ItemLog.close {ref : ItemRef} {deltas dones : List (ItemRef × Bytes)} (h : ItemLog true false ref text deltas dones) :
    ItemLog true true ref text deltas (dones ++ [(ref, shown text)]) := by
  refine ⟨h.refs, h.any, ?_⟩
  rw [h.dones]
  rfl

/-- An item that shows nothing yet can still take its index. -/
theorem ItemLog.fresh {ref : ItemRef} {before : Bytes} {deltas dones : List (ItemRef × Bytes)}
    (h : ItemLog false false ref before deltas dones) (ref' : ItemRef) : ItemLog false false ref' before deltas dones := by
  have hnil := h.any.mpr rfl
  refine ⟨?_, h.any, h.dones⟩
  rw [hnil]
  exact fun d hd => absurd hd List.not_mem_nil

theorem doneRefs_eq (log : List StreamEvent) :
    log.filterMap StreamEvent.doneRef = (log.filterMap StreamEvent.doneItem).map itemRef := by
  rw [List.map_filterMap]
  rfl

theorem emitReasoning_opened (ho : c.st.reasoningItemOpened = true) (hs : c.st.reasoningSummaryStarted = true) :
    (emitReasoning orders text c).log = c.log ++ [.summaryTextDelta c.st.reasoningRef (shown text)] ∧
      (emitReasoning orders text c).st = { c.st with
        reasoningText := c.st.reasoningText ++ text, reasoningEmittedAny := true, sequence := c.st.sequence + 1 } := by
  simp [emitReasoning, openReasoning, startSummary, ho, hs]

theorem emitReasoning_fresh (ho : c.st.reasoningItemOpened = false) (hs : c.st.reasoningSummaryStarted = false) :
    (emitReasoning orders text c).log = c.log ++
        [.outputItemAdded c.st.nextOutputIndex (.reasoning c.st.reasoningId .inProgress []),
          .summaryPartAdded (c.st.nextOutputIndex, c.st.reasoningId),
          .summaryTextDelta (c.st.nextOutputIndex, c.st.reasoningId) (shown text)] ∧
      (emitReasoning orders text c).st = { c.st with
        reasoningIndex := c.st.nextOutputIndex, nextOutputIndex := c.st.nextOutputIndex + 1, reasoningItemOpened := true,
        reasoningSummaryStarted := true, reasoningText := c.st.reasoningText ++ text, reasoningEmittedAny := true,
        sequence := c.st.sequence + 3 } := by
  simp [emitReasoning, openReasoning, startSummary, ho, hs, ResponsesStream.reasoningRef]

/-- Reasoning is shown before any message is announced. -/
theorem Aligned.emitReasoning (h : Aligned finish c.st c.log) (hm : c.st.messageItemOpened = false)
    (hc : c.st.reasoningItemClosed = false) :
    Aligned finish (emitReasoning orders text c).st (emitReasoning orders text c).log := by
  have hmc : c.st.messageItemClosed = false := by
    by_contra hmc
    rw [h.messageLast (by simpa using hmc)] at hm
    exact Bool.noConfusion hm
  have hnone : c.log.filterMap StreamEvent.doneItem = [] := by simp [h.done, ResponsesStream.closedItems, hc, hmc]
  have hsum := h.summary
  rw [hc] at hsum
  cases ho : c.st.reasoningItemOpened with
  | true =>
    obtain ⟨hlog, hst⟩ := emitReasoning_opened orders text ho (h.summaryStarted.trans ho)
    rw [hlog, hst]
    exact {
      opensFirst := h.opensFirst.append _ (by simp [StreamEvent.doneRef, StreamEvent.doneItem])
      added := by simp [List.filterMap_cons, StreamEvent.addedRef, h.added, ResponsesStream.openRefs, ResponsesStream.reasoningRef,
        ResponsesStream.messageRef]
      done := by simp [List.filterMap_cons, StreamEvent.doneItem, hnone, ResponsesStream.closedItems, hc, hmc]
      terminal := by simp [List.filterMap_cons, StreamEvent.terminalOutput, h.terminal]
      summary := by
        rw [ho] at hsum
        simpa [List.filterMap_cons, StreamEvent.summaryDelta, StreamEvent.summaryDone, ho, hc, ResponsesStream.reasoningRef]
          using hsum.delta text
      text := by simpa [List.filterMap_cons, StreamEvent.textDelta, StreamEvent.textDone, ResponsesStream.messageRef] using h.text
      reasoningAt := h.reasoningAt
      messageAt := h.messageAt
      next := h.next
      summaryStarted := h.summaryStarted
      textStarted := h.textStarted
      reasoningAny := ho.symm
      messageAny := h.messageAny
      thinking := h.thinking
      messageLast := h.messageLast }
  | false =>
    have hrefs : c.st.openRefs = [] := by simp [ResponsesStream.openRefs, ho, hm]
    have hnext : c.st.nextOutputIndex = 0 := by simp [h.next, hrefs]
    obtain ⟨hlog, hst⟩ := emitReasoning_fresh orders text ho (h.summaryStarted.trans ho)
    rw [hlog, hst, hnext]
    exact {
      opensFirst := h.opensFirst.append _ (by simp [StreamEvent.doneRef, StreamEvent.doneItem])
      added := by simp [List.filterMap_cons, StreamEvent.addedRef, h.added, ResponsesStream.openRefs,
        ResponsesStream.reasoningRef, OutputItem.id, ho, hm]
      done := by simp [List.filterMap_cons, StreamEvent.doneItem, hnone, ResponsesStream.closedItems, hc, hmc]
      terminal := by simp [List.filterMap_cons, StreamEvent.terminalOutput, h.terminal]
      summary := by
        rw [ho] at hsum
        simpa [List.filterMap_cons, StreamEvent.summaryDelta, StreamEvent.summaryDone, hc, ResponsesStream.reasoningRef]
          using (hsum.fresh (0, c.st.reasoningId)).delta text
      text := by simpa [List.filterMap_cons, StreamEvent.textDelta, StreamEvent.textDone, ResponsesStream.messageRef] using h.text
      reasoningAt := fun _ => rfl
      messageAt := by simp [hm]
      next := by simp [ResponsesStream.openRefs, hm]
      summaryStarted := rfl
      textStarted := h.textStarted
      reasoningAny := rfl
      messageAny := h.messageAny
      thinking := h.thinking
      messageLast := h.messageLast }

theorem emitMessage_opened (ho : c.st.messageItemOpened = true) (hs : c.st.messageTextPartOpen = true) :
    (emitMessage orders text c).log = c.log ++ [.outputTextDelta c.st.messageRef (shown text)] ∧
      (emitMessage orders text c).st = { c.st with
        messageText := c.st.messageText ++ text, messageEmittedAny := true, sequence := c.st.sequence + 1 } := by
  simp [emitMessage, openMessage, startTextPart, ho, hs]

theorem emitMessage_fresh (ho : c.st.messageItemOpened = false) (hs : c.st.messageTextPartOpen = false) :
    (emitMessage orders text c).log = c.log ++
        [.outputItemAdded c.st.nextOutputIndex (.message c.st.messageId .inProgress none),
          .contentPartAdded (c.st.nextOutputIndex, c.st.messageId),
          .outputTextDelta (c.st.nextOutputIndex, c.st.messageId) (shown text)] ∧
      (emitMessage orders text c).st = { c.st with
        messageIndex := c.st.nextOutputIndex, nextOutputIndex := c.st.nextOutputIndex + 1, messageItemOpened := true,
        messageTextPartOpen := true, messageText := c.st.messageText ++ text, messageEmittedAny := true,
        sequence := c.st.sequence + 3 } := by
  simp [emitMessage, openMessage, startTextPart, ho, hs, ResponsesStream.messageRef]

/-- A message is shown after the reasoning, which may be closed already. -/
theorem Aligned.emitMessage (h : Aligned finish c.st c.log) (hmode : c.st.mode ≠ .thinking)
    (hc : c.st.messageItemClosed = false) :
    Aligned finish (emitMessage orders text c).st (emitMessage orders text c).log := by
  have htext := h.text
  rw [hc] at htext
  cases ho : c.st.messageItemOpened with
  | true =>
    obtain ⟨hlog, hst⟩ := emitMessage_opened orders text ho (h.textStarted.trans ho)
    rw [hlog, hst]
    exact {
      opensFirst := h.opensFirst.append _ (by simp [StreamEvent.doneRef, StreamEvent.doneItem])
      added := by simp [List.filterMap_cons, StreamEvent.addedRef, h.added, ResponsesStream.openRefs,
        ResponsesStream.reasoningRef, ResponsesStream.messageRef]
      done := by simp [List.filterMap_cons, StreamEvent.doneItem, h.done, ResponsesStream.closedItems, hc, reasoningItem,
        reasoningStatus]
      terminal := by simp [List.filterMap_cons, StreamEvent.terminalOutput, h.terminal]
      summary := by
        simpa [List.filterMap_cons, StreamEvent.summaryDelta, StreamEvent.summaryDone, ResponsesStream.reasoningRef]
          using h.summary
      text := by
        rw [ho] at htext
        simpa [List.filterMap_cons, StreamEvent.textDelta, StreamEvent.textDone, ho, hc, ResponsesStream.messageRef]
          using htext.delta text
      reasoningAt := h.reasoningAt
      messageAt := h.messageAt
      next := h.next
      summaryStarted := h.summaryStarted
      textStarted := h.textStarted
      reasoningAny := h.reasoningAny
      messageAny := ho.symm
      thinking := fun hm => absurd hm hmode
      messageLast := h.messageLast }
  | false =>
    have hnext : c.st.nextOutputIndex = if c.st.reasoningItemOpened then 1 else 0 := by
      rw [h.next, ResponsesStream.openRefs, ho]
      split <;> simp
    obtain ⟨hlog, hst⟩ := emitMessage_fresh orders text ho (h.textStarted.trans ho)
    rw [hlog, hst]
    exact {
      opensFirst := h.opensFirst.append _ (by simp [StreamEvent.doneRef, StreamEvent.doneItem])
      added := by simp [List.filterMap_cons, StreamEvent.addedRef, h.added, ResponsesStream.openRefs,
        ResponsesStream.reasoningRef, ResponsesStream.messageRef, OutputItem.id, ho]
      done := by simp [List.filterMap_cons, StreamEvent.doneItem, h.done, ResponsesStream.closedItems, hc, reasoningItem,
        reasoningStatus]
      terminal := by simp [List.filterMap_cons, StreamEvent.terminalOutput, h.terminal]
      summary := by
        simpa [List.filterMap_cons, StreamEvent.summaryDelta, StreamEvent.summaryDone, ResponsesStream.reasoningRef]
          using h.summary
      text := by
        rw [ho] at htext
        simpa [List.filterMap_cons, StreamEvent.textDelta, StreamEvent.textDone, hc, ResponsesStream.messageRef]
          using (htext.fresh (c.st.nextOutputIndex, c.st.messageId)).delta text
      reasoningAt := h.reasoningAt
      messageAt := fun _ => hnext
      next := by
        rw [hnext, ResponsesStream.openRefs]
        split <;> simp
      summaryStarted := h.summaryStarted
      textStarted := rfl
      reasoningAny := h.reasoningAny
      messageAny := rfl
      thinking := fun hm => absurd hm hmode
      messageLast := fun _ => rfl }

/-! ### The texts -/

/-- Both texts are what their deltas make. -/
structure Mirrored (c : ResponsesConn) : Prop where
  summary : Mirrors c.st.reasoningText (c.log.filterMap StreamEvent.summaryDelta)
  text : Mirrors c.st.messageText (c.log.filterMap StreamEvent.textDelta)

theorem Mirrored.emitReasoning (h : Mirrored c) (hs : c.st.reasoningSummaryStarted = c.st.reasoningItemOpened)
    (ht : (0 : UInt8) ∉ text) : Mirrored (emitReasoning orders text c) := by
  cases ho : c.st.reasoningItemOpened with
  | true =>
    obtain ⟨hlog, hst⟩ := emitReasoning_opened orders text ho (hs.trans ho)
    refine ⟨?_, ?_⟩
    · rw [hlog, hst]
      simpa [List.filterMap_cons, StreamEvent.summaryDelta] using h.summary.push c.st.reasoningRef ht
    · rw [hlog, hst]
      simpa [List.filterMap_cons, StreamEvent.textDelta] using h.text
  | false =>
    obtain ⟨hlog, hst⟩ := emitReasoning_fresh orders text ho (hs.trans ho)
    refine ⟨?_, ?_⟩
    · rw [hlog, hst]
      simpa [List.filterMap_cons, StreamEvent.summaryDelta] using h.summary.push (c.st.nextOutputIndex, c.st.reasoningId) ht
    · rw [hlog, hst]
      simpa [List.filterMap_cons, StreamEvent.textDelta] using h.text

theorem Mirrored.emitMessage (h : Mirrored c) (hs : c.st.messageTextPartOpen = c.st.messageItemOpened)
    (ht : (0 : UInt8) ∉ text) : Mirrored (emitMessage orders text c) := by
  cases ho : c.st.messageItemOpened with
  | true =>
    obtain ⟨hlog, hst⟩ := emitMessage_opened orders text ho (hs.trans ho)
    refine ⟨?_, ?_⟩
    · rw [hlog, hst]
      simpa [List.filterMap_cons, StreamEvent.summaryDelta] using h.summary
    · rw [hlog, hst]
      simpa [List.filterMap_cons, StreamEvent.textDelta] using h.text.push c.st.messageRef ht
  | false =>
    obtain ⟨hlog, hst⟩ := emitMessage_fresh orders text ho (hs.trans ho)
    refine ⟨?_, ?_⟩
    · rw [hlog, hst]
      simpa [List.filterMap_cons, StreamEvent.summaryDelta] using h.summary
    · rw [hlog, hst]
      simpa [List.filterMap_cons, StreamEvent.textDelta] using h.text.push (c.st.nextOutputIndex, c.st.messageId) ht

/-! ### The cursor -/

/-- Nothing of the log depends on where the cursor stands. -/
theorem Aligned.move {st : ResponsesStream} {log : List StreamEvent} (h : Aligned finish st log)
    (mode : ResponsesStreamMode) (pos : Nat) (checked natural : Bool)
    (hnatural : st.reasoningItemClosed = true → natural = st.reasoningClosedNaturally)
    (hmode : mode = .thinking → st.messageItemOpened = false) :
    Aligned finish { st with
      mode := mode, emitPos := pos, checkedThinkPrefix := checked, reasoningClosedNaturally := natural } log := by
  refine { h with done := ?_, thinking := hmode }
  rw [h.done, ResponsesStream.closedItems, ResponsesStream.closedItems]
  cases hc : st.reasoningItemClosed with
  | true => simp [hnatural hc, messageItem, reasoningItem, reasoningStatus]
  | false => simp [messageItem]

end

/-! ## Updates keep the state and the log together -/

/-- Before the end: nothing is closed yet. The texts agree as long as `P` holds. -/
structure Running (finish : Bytes) (P : Prop) (c : ResponsesConn) : Prop where
  counted : Counted c.st.sequence c.sent
  aligned : Aligned finish c.st c.log
  reasoningOpen : c.st.reasoningItemClosed = false
  messageOpen : c.st.messageItemClosed = false
  active : c.st.active = true
  mirrored : P → Mirrored c

/-- Nothing of `rest` that the text phase can show is a NUL: a marker is found before
    the first NUL, or the bytes allowed hold none. -/
def textClean (hasTools : Bool) (rest : Bytes) (n : Nat) : Bool :=
  (if hasTools then findAnyToolStart (cstr rest) else none).isSome || !(rest.take n).contains 0

def thinkingClean (r : ResponsesRequest) (rest : Bytes) (n : Nat) : Bool :=
  match strstr thinkClose (cstr rest) with
  | some (reasoning, _) =>
    textClean r.hasTools (rest.drop (reasoning.length + thinkClose.length)) (n - (reasoning.length + thinkClose.length))
  | none => !r.reasoningSummaryEmit || !(rest.take n).contains 0

/-- No NUL among the bytes an update can still show. -/
def updateClean (r : ResponsesRequest) (raw : Bytes) (rawLen : Nat) (final : Bool) (st : ResponsesStream) : Bool :=
  match st.mode with
  | .suppress => true
  | .text => textClean r.hasTools (raw.drop st.emitPos) (rawLen - st.emitPos)
  | .thinking =>
    match responsesThinkPrefix raw rawLen final st with
    | none => true
    | some st => thinkingClean r (raw.drop st.emitPos) (rawLen - st.emitPos)

theorem no_nul_of_cstr {rest before after : Bytes} (h : cstr rest = before ++ after) {k : Nat} (hk : k ≤ before.length) :
    (0 : UInt8) ∉ rest.take k := by
  obtain ⟨t, ht⟩ := List.takeWhile_prefix (l := rest) (· ≠ (0 : UInt8))
  have hrest : rest = before ++ (after ++ t) := by
    rw [← ht]
    change cstr rest ++ t = _
    rw [h, List.append_assoc]
  rw [hrest, List.take_append_of_le_length hk]
  intro hin
  exact cstr_no_nul rest (h ▸ List.mem_append_left _ (List.mem_of_mem_take hin))

theorem no_nul_of_le {rest : Bytes} {n k : Nat} (h : (rest.take n).contains 0 = false) (hk : k ≤ n) :
    (0 : UInt8) ∉ rest.take k := by
  intro hin
  rw [show rest.take k = (rest.take n).take k by rw [List.take_take, Nat.min_eq_left hk]] at hin
  simp [List.mem_of_mem_take hin] at h

theorem textSafeLimit_clean {rest : Bytes} {n : Nat} {hasTools final : Bool} (h : textClean hasTools rest n = true) :
    (0 : UInt8) ∉ rest.take (textSafeLimit rest n hasTools final) := by
  by_cases hn : n = 0
  · simp [textSafeLimit, hn]
  cases hm : (if hasTools then findAnyToolStart (cstr rest) else none) with
  | some m =>
    obtain ⟨before, after⟩ := m
    have htool : findAnyToolStart (cstr rest) = some (before, after) := by
      cases hasTools with
      | true => exact hm
      | false => simp at hm
    have hlimit : textSafeLimit rest n hasTools final = trimmedLen before := by simp only [textSafeLimit, if_neg hn, hm]
    rw [hlimit]
    exact no_nul_of_cstr (findAnyToolStart_sound htool).1 (List.rdropWhile_prefix _ before).length_le
  | none =>
    have hfree : (rest.take n).contains 0 = false := by simpa [textClean, hm] using h
    have hle : ∀ seg : Bytes, seg.length ≤ n → utf8StreamSafeLen seg final ≤ n := fun seg hseg =>
      (utf8StreamSafeLen_le seg final).trans hseg
    apply no_nul_of_le hfree
    simp only [textSafeLimit, if_neg hn, hm]
    cases hasTools && !final with
    | true =>
      apply hle
      simp only [List.length_take]
      omega
    | false => exact hle _ (by simp)

section
variable (r : ResponsesRequest) (raw : Bytes) (rawLen k : Nat) (final : Bool) {c : ResponsesConn} {finish : Bytes} {P Q : Prop}

theorem emitReasoning_frame (orders : List ToolSchemaOrder) (text : Bytes) (c : ResponsesConn) :
    (emitReasoning orders text c).st.mode = c.st.mode ∧ (emitReasoning orders text c).st.emitPos = c.st.emitPos ∧
      (emitReasoning orders text c).st.active = c.st.active ∧
      (emitReasoning orders text c).st.reasoningItemClosed = c.st.reasoningItemClosed ∧
      (emitReasoning orders text c).st.messageItemClosed = c.st.messageItemClosed ∧
      (emitReasoning orders text c).st.messageItemOpened = c.st.messageItemOpened := by
  simp only [emitReasoning, openReasoning, startSummary]
  split_ifs <;> simp

theorem emitMessage_frame (orders : List ToolSchemaOrder) (text : Bytes) (c : ResponsesConn) :
    (emitMessage orders text c).st.mode = c.st.mode ∧ (emitMessage orders text c).st.emitPos = c.st.emitPos ∧
      (emitMessage orders text c).st.active = c.st.active ∧
      (emitMessage orders text c).st.reasoningItemClosed = c.st.reasoningItemClosed ∧
      (emitMessage orders text c).st.messageItemClosed = c.st.messageItemClosed ∧
      (emitMessage orders text c).st.reasoningItemOpened = c.st.reasoningItemOpened := by
  simp only [emitMessage, openMessage, startTextPart]
  split_ifs <;> simp

/-- The cursor and the mode move, the log stays. -/
theorem Running.move (h : Running finish P c) (mode : ResponsesStreamMode) (pos : Nat) (checked natural : Bool)
    (hmode : mode = .thinking → c.st.messageItemOpened = false) :
    Running finish P { c with st := { c.st with
      mode := mode, emitPos := pos, checkedThinkPrefix := checked, reasoningClosedNaturally := natural } } where
  counted := h.counted
  aligned := h.aligned.move mode pos checked natural (fun hc => absurd (h.reasoningOpen ▸ hc) (by simp)) hmode
  reasoningOpen := h.reasoningOpen
  messageOpen := h.messageOpen
  active := h.active
  mirrored := fun hP => ⟨(h.mirrored hP).summary, (h.mirrored hP).text⟩

theorem Running.mono (h : Running finish P c) (hQ : Q → P) : Running finish Q c :=
  { h with mirrored := fun hq => h.mirrored (hQ hq) }

theorem Running.showReasoning (h : Running finish P c) (hm : c.st.messageItemOpened = false) (hQ : Q → P)
    (hclean : Q → r.reasoningSummaryEmit = true → (0 : UInt8) ∉ (raw.drop c.st.emitPos).take k) :
    Running finish Q (showReasoning r raw k c) ∧ (showReasoning r raw k c).st.messageItemOpened = false ∧
      (showReasoning r raw k c).st.mode = c.st.mode := by
  rw [Server.showReasoning]
  split_ifs with hk he
  · exact ⟨h.mono hQ, hm, rfl⟩
  · obtain ⟨hmode, -, hactive, hr, hmc, hmo⟩ := emitReasoning_frame r.toolOrders ((raw.drop c.st.emitPos).take k) c
    have hrun : Running finish Q (emitReasoning r.toolOrders ((raw.drop c.st.emitPos).take k) c) := {
      counted := h.counted.emitReasoning _ _
      aligned := h.aligned.emitReasoning _ _ hm h.reasoningOpen
      reasoningOpen := hr.trans h.reasoningOpen
      messageOpen := hmc.trans h.messageOpen
      active := hactive.trans h.active
      mirrored := fun hq => (h.mirrored (hQ hq)).emitReasoning _ _ h.aligned.summaryStarted (hclean hq he) }
    exact ⟨hrun.move _ _ _ _ fun _ => hmo.trans hm, hmo.trans hm, hmode⟩
  · exact ⟨(h.mono hQ).move _ _ _ _ fun _ => hm, hm, rfl⟩

theorem Running.showText (h : Running finish P c) (hmode : c.st.mode ≠ .thinking) (hQ : Q → P)
    (hclean : Q → (0 : UInt8) ∉ (raw.drop c.st.emitPos).take k) :
    Running finish Q (showText r raw k c) ∧ (showText r raw k c).st.mode = c.st.mode := by
  rw [Server.showText]
  split_ifs with hk
  · exact ⟨h.mono hQ, rfl⟩
  · obtain ⟨hm, -, hactive, hr, hmc, -⟩ := emitMessage_frame r.toolOrders ((raw.drop c.st.emitPos).take k) c
    have hrun : Running finish Q (emitMessage r.toolOrders ((raw.drop c.st.emitPos).take k) c) := {
      counted := h.counted.emitMessage _ _
      aligned := h.aligned.emitMessage _ _ hmode h.messageOpen
      reasoningOpen := hr.trans h.reasoningOpen
      messageOpen := hmc.trans h.messageOpen
      active := hactive.trans h.active
      mirrored := fun hq => (h.mirrored (hQ hq)).emitMessage _ _ h.aligned.textStarted (hclean hq) }
    exact ⟨hrun.move _ _ _ _ fun ht => absurd (hm ▸ ht) hmode, hm⟩

theorem Running.text (h : Running finish P c) (hmode : c.st.mode = .text) :
    Running finish (P ∧ textClean r.hasTools (raw.drop c.st.emitPos) (rawLen - c.st.emitPos) = true)
        (responsesText r raw rawLen final c) ∧
      (responsesText r raw rawLen final c).st.mode ≠ .thinking := by
  have hne : c.st.mode ≠ .thinking := by rw [hmode]; decide
  obtain ⟨hrun, hm⟩ := h.showText r raw
    (textSafeLimit (raw.drop c.st.emitPos) (rawLen - c.st.emitPos) r.hasTools final) hne
    (Q := P ∧ textClean r.hasTools (raw.drop c.st.emitPos) (rawLen - c.st.emitPos) = true) And.left
    fun hq => textSafeLimit_clean hq.2
  simp only [responsesText]
  split
  · exact ⟨hrun.move _ _ _ _ fun ht => (by cases ht), ResponsesStreamMode.noConfusion⟩
  · split_ifs
    · exact ⟨hrun.move _ _ _ _ fun ht => (by cases ht), ResponsesStreamMode.noConfusion⟩
    · exact ⟨hrun, hm ▸ hne⟩

variable {raw rawLen final} in
theorem responsesThinkPrefix_some {st st' : ResponsesStream} (h : responsesThinkPrefix raw rawLen final st = some st') :
    ∃ pos, st' = { st with emitPos := pos, checkedThinkPrefix := true } := by
  rw [responsesThinkPrefix] at h
  split_ifs at h with hc
  · cases h
    exact ⟨st.emitPos, by rw [← hc]⟩
  all_goals
    cases h
    exact ⟨_, rfl⟩

/-- Where the text phase would go on from, its bytes are as clean as the thinking phase
    found them. -/
theorem Running.thinking (h : Running finish P c) (hmode : c.st.mode = .thinking) :
    Running finish (P ∧ updateClean r raw rawLen final c.st = true) (responsesThinking r raw rawLen final c) ∧
      ((responsesThinking r raw rawLen final c).st.mode = .text → updateClean r raw rawLen final c.st = true →
        textClean r.hasTools (raw.drop (responsesThinking r raw rawLen final c).st.emitPos)
          (rawLen - (responsesThinking r raw rawLen final c).st.emitPos) = true) ∧
      (final = true → (responsesThinking r raw rawLen final c).st.mode ≠ .thinking) := by
  have hm := h.aligned.thinking hmode
  simp only [responsesThinking, updateClean, hmode]
  cases hp : responsesThinkPrefix raw rawLen final c.st with
  | none =>
    refine ⟨h.mono And.left, fun ht => absurd (hmode.symm.trans ht) (by decide), ?_⟩
    rintro rfl
    simp [responsesThinkPrefix] at hp
    grind
  | some st =>
    obtain ⟨pos, rfl⟩ := responsesThinkPrefix_some hp
    have h1 : Running finish P { c with st := { c.st with emitPos := pos, checkedThinkPrefix := true } } :=
      h.move _ _ _ _ fun _ => hm
    simp only
    cases hs : strstr thinkClose (cstr (raw.drop pos)) with
    | some m =>
      obtain ⟨reasoning, after⟩ := m
      obtain ⟨hrun, hmo, -⟩ := h1.showReasoning r raw reasoning.length hm
        (Q := P ∧ thinkingClean r (raw.drop pos) (rawLen - pos) = true) And.left
        fun _ _ => no_nul_of_cstr (strstr_sound hs).1 le_rfl
      refine ⟨hrun.move _ _ _ _ fun ht => (by cases ht), fun _ hc => ?_, fun _ => by simp⟩
      simpa [thinkingClean, hs, List.drop_drop, Nat.add_assoc, Nat.sub_sub] using hc
    | none =>
      have hclean : ∀ k ≤ rawLen - pos, thinkingClean r (raw.drop pos) (rawLen - pos) = true →
          r.reasoningSummaryEmit = true → (0 : UInt8) ∉ (raw.drop pos).take k := by
        intro k hk hc he
        apply no_nul_of_le _ hk
        simpa [thinkingClean, hs, he] using hc
      cases hf : final with
      | true =>
        obtain ⟨hrun, -, -⟩ := h1.showReasoning r raw (rawLen - pos) hm
          (Q := P ∧ thinkingClean r (raw.drop pos) (rawLen - pos) = true) And.left fun hq => hclean _ le_rfl hq.2
        exact ⟨hrun.move _ _ _ _ fun ht => (by cases ht), fun ht => (by cases ht), fun _ => by simp⟩
      | false =>
        have hk : utf8StreamSafeLen ((raw.drop pos).take (rawLen - pos - (thinkClose.length - 1))) false ≤ rawLen - pos := by
          refine (utf8StreamSafeLen_le _ _).trans ?_
          simp only [List.length_take]
          omega
        obtain ⟨hrun, -, hmo⟩ := h1.showReasoning r raw _ hm
          (Q := P ∧ thinkingClean r (raw.drop pos) (rawLen - pos) = true) And.left fun hq => hclean _ hk hq.2
        exact ⟨hrun, fun ht => absurd (hmo.symm.trans ht) (by simp [hmode]), fun ht => by cases ht⟩

/-- One update, whatever its text. -/
theorem Running.update (h : Running finish P c) :
    Running finish (P ∧ updateClean r raw rawLen final c.st = true) (responsesSseStreamUpdate r raw rawLen final c) ∧
      (final = true → (responsesSseStreamUpdate r raw rawLen final c).st.mode ≠ .thinking) := by
  simp only [responsesSseStreamUpdate, h.active, Bool.not_true, Bool.false_eq_true, if_false]
  cases hmode : c.st.mode with
  | thinking =>
    obtain ⟨hrun, hnext, hfinal⟩ := h.thinking r raw rawLen final hmode
    rw [if_pos rfl]
    split_ifs with ht
    · obtain ⟨htext, hm⟩ := hrun.text r raw rawLen final ht
      exact ⟨htext.mono fun hq => ⟨hq, hnext ht hq.2⟩, fun _ => hm⟩
    · exact ⟨hrun, hfinal⟩
  | text =>
    simp only [reduceCtorEq, if_false, hmode, if_true]
    obtain ⟨htext, hm⟩ := h.text r raw rawLen final hmode
    refine ⟨htext.mono fun hq => ⟨hq.1, ?_⟩, fun _ => hm⟩
    simpa [updateClean, hmode] using hq.2
  | suppress =>
    simp only [reduceCtorEq, if_false, hmode]
    exact ⟨h.mono And.left, fun _ => by decide⟩

end

/-! ## The end closes what is open -/

/-- The reasoning is closed if it was ever announced. -/
structure Ending (finish : Bytes) (P : Prop) (c : ResponsesConn) : Prop where
  counted : Counted c.st.sequence c.sent
  aligned : Aligned finish c.st c.log
  reasoningClosed : c.st.reasoningItemClosed = c.st.reasoningItemOpened
  mode : c.st.mode ≠ .thinking
  mirrored : P → Mirrored c

section
variable {r : ResponsesRequest} {fin : FinishArgs} {c : ResponsesConn} {finish : Bytes} {P Q : Prop}

theorem closeReasoning_log (ho : c.st.reasoningItemOpened = true) (hc : c.st.reasoningItemClosed = false)
    (hs : c.st.reasoningSummaryStarted = true) :
    (closeReasoning r c).log = c.log ++ [.summaryTextDone c.st.reasoningRef (shown c.st.reasoningText),
        .summaryPartDone c.st.reasoningRef (shown c.st.reasoningText),
        .outputItemDone c.st.reasoningIndex (reasoningItem (reasoningStatus c.st) c.st)] ∧
      (closeReasoning r c).st = { c.st with reasoningItemClosed := true, sequence := c.st.sequence + 3 } := by
  simp [closeReasoning, responsesSseReasoningDone, ho, hc, hs, ResponsesStream.reasoningRef, reasoningItem, reasoningStatus]

theorem closeReasoning_counted (h : Counted c.st.sequence c.sent) :
    Counted (closeReasoning r c).st.sequence (closeReasoning r c).sent := by
  simp only [closeReasoning, responsesSseReasoningDone, emitEvent_eq]
  split_ifs
  · exact ((h.push _ _).push _ _).push _ _
  · exact (h.push _ _).push _ _
  · exact h

theorem Running.closeReasoning (h : Running finish P c) (hmode : c.st.mode ≠ .thinking) :
    Ending finish P (closeReasoning r c) ∧ (closeReasoning r c).st.messageItemClosed = false ∧
      (closeReasoning r c).st.emitPos = c.st.emitPos := by
  have hcount := closeReasoning_counted (r := r) h.counted
  cases ho : c.st.reasoningItemOpened with
  | false =>
    have hsame : Server.closeReasoning r c = c := by simp [Server.closeReasoning, ho]
    rw [hsame]
    exact ⟨⟨h.counted, h.aligned, h.reasoningOpen.trans ho.symm, hmode, h.mirrored⟩, h.messageOpen, rfl⟩
  | true =>
    obtain ⟨hlog, hst⟩ := closeReasoning_log (r := r) ho h.reasoningOpen (h.aligned.summaryStarted.trans ho)
    have hmc := h.messageOpen
    have hsum := h.aligned.summary
    rw [ho, h.reasoningOpen] at hsum
    have haligned : Aligned finish (Server.closeReasoning r c).st (Server.closeReasoning r c).log := by
      rw [hlog, hst]
      have hmem : c.st.reasoningRef ∈ c.log.filterMap StreamEvent.addedRef := by
        simp [h.aligned.added, ResponsesStream.openRefs, ho]
      refine { h.aligned with opensFirst := ?_, added := ?_, done := ?_, terminal := ?_, summary := ?_, text := ?_ }
      · have hquiet := h.aligned.opensFirst.append
          [.summaryTextDone c.st.reasoningRef (shown c.st.reasoningText),
            .summaryPartDone c.st.reasoningRef (shown c.st.reasoningText)] (by simp [StreamEvent.doneRef, StreamEvent.doneItem])
        have hpush := hquiet.push (e := .outputItemDone c.st.reasoningIndex (reasoningItem (reasoningStatus c.st) c.st))
          fun ref href => by
            rw [List.filterMap_append, List.mem_append]
            left
            cases href
            exact hmem
        simpa using hpush
      · simp [List.filterMap_cons, StreamEvent.addedRef, h.aligned.added, ResponsesStream.openRefs,
          ResponsesStream.reasoningRef, ResponsesStream.messageRef]
      · simp [List.filterMap_cons, StreamEvent.doneItem, h.aligned.done, ResponsesStream.closedItems, hmc, h.reasoningOpen,
          reasoningItem, reasoningStatus]
      · simp [List.filterMap_cons, StreamEvent.terminalOutput, h.aligned.terminal]
      · simpa [List.filterMap_cons, StreamEvent.summaryDelta, StreamEvent.summaryDone, ResponsesStream.reasoningRef, ho]
          using hsum.close
      · simpa [List.filterMap_cons, StreamEvent.textDelta, StreamEvent.textDone, ResponsesStream.messageRef]
          using h.aligned.text
    refine ⟨⟨hcount, haligned, by rw [hst]; exact ho.symm, by rw [hst]; exact hmode, fun hP => ⟨?_, ?_⟩⟩, ?_, ?_⟩
    · rw [hlog, hst]
      simpa [List.filterMap_cons, StreamEvent.summaryDelta] using (h.mirrored hP).summary
    · rw [hlog, hst]
      simpa [List.filterMap_cons, StreamEvent.textDelta] using (h.mirrored hP).text
    · rw [hst]
      exact hmc
    · rw [hst]

theorem Ending.move (h : Ending finish P c) (pos : Nat) :
    Ending finish P { c with st := { c.st with emitPos := pos } } where
  counted := h.counted
  aligned := h.aligned.move c.st.mode pos c.st.checkedThinkPrefix c.st.reasoningClosedNaturally (fun _ => rfl) h.aligned.thinking
  reasoningClosed := h.reasoningClosed
  mode := h.mode
  mirrored := fun hP => ⟨(h.mirrored hP).summary, (h.mirrored hP).text⟩

theorem Ending.emitMessage (h : Ending finish P c) (orders : List ToolSchemaOrder) (text : Bytes)
    (hmc : c.st.messageItemClosed = false) (hQ : Q → P) (hclean : Q → (0 : UInt8) ∉ text) :
    Ending finish Q (emitMessage orders text c) ∧ (Server.emitMessage orders text c).st.messageItemClosed = false := by
  obtain ⟨hm, -, -, hr, hmc', hro⟩ := emitMessage_frame orders text c
  exact ⟨{
    counted := h.counted.emitMessage _ _
    aligned := h.aligned.emitMessage _ _ h.mode hmc
    reasoningClosed := hr.trans (h.reasoningClosed.trans hro.symm)
    mode := hm ▸ h.mode
    mirrored := fun hq => (h.mirrored (hQ hq)).emitMessage _ _ h.aligned.textStarted (hclean hq) }, hmc'.trans hmc⟩

variable (r fin) in
theorem Ending.recoverTail (h : Ending finish P c) (hmc : c.st.messageItemClosed = false) (hQ : Q → P)
    (hclean : Q → fin.recoveredContent = true → (0 : UInt8) ∉ (fin.raw.take fin.rawLen).drop c.st.emitPos) :
    Ending finish Q (recoverTail r fin c) ∧ (recoverTail r fin c).st.messageItemClosed = false := by
  rw [Server.recoverTail, Server.showText]
  split_ifs with hrec hk
  · exact ⟨{ h with mirrored := fun hq => h.mirrored (hQ hq) }, hmc⟩
  · simp only [Bool.and_eq_true] at hrec
    have hno : Q → (0 : UInt8) ∉ (fin.raw.drop c.st.emitPos).take (fin.rawLen - c.st.emitPos) := by
      intro hq
      rw [← List.drop_take]
      exact hclean hq hrec.1
    obtain ⟨hend, hmc'⟩ := h.emitMessage r.toolOrders _ hmc hQ hno
    exact ⟨hend.move _, hmc'⟩
  · exact ⟨{ h with mirrored := fun hq => h.mirrored (hQ hq) }, hmc⟩

variable (r finish) in
theorem closeMessage_log (ho : c.st.messageItemOpened = true) (hc : c.st.messageItemClosed = false) :
    (closeMessage r finish c).log = c.log ++ [.outputTextDone c.st.messageRef (shown c.st.messageText),
        .contentPartDone c.st.messageRef (shown c.st.messageText),
        .outputItemDone c.st.messageIndex (messageItem (responsesItemStatusForFinish finish) c.st)] ∧
      (closeMessage r finish c).st = { c.st with messageItemClosed := true, sequence := c.st.sequence + 3 } := by
  simp [closeMessage, responsesSseMessageDone, ho, hc, ResponsesStream.messageRef, messageItem]

/-- Everything announced so far is closed. -/
structure Closed (finish : Bytes) (P : Prop) (c : ResponsesConn) : Prop extends Ending finish P c where
  messageClosed : c.st.messageItemClosed = c.st.messageItemOpened

theorem Ending.closeMessage (h : Ending finish P c) (hmc : c.st.messageItemClosed = false) :
    Closed finish P (closeMessage r finish c) := by
  have hcount : Counted (Server.closeMessage r finish c).st.sequence (Server.closeMessage r finish c).sent := by
    simp only [Server.closeMessage, responsesSseMessageDone, emitEvent_eq]
    split
    · exact ((h.counted.push _ _).push _ _).push _ _
    · exact h.counted
  cases ho : c.st.messageItemOpened with
  | false =>
    have hsame : Server.closeMessage r finish c = c := by simp [Server.closeMessage, ho]
    rw [hsame]
    exact ⟨h, hmc.trans ho.symm⟩
  | true =>
    obtain ⟨hlog, hst⟩ := closeMessage_log r finish ho hmc
    have htext := h.aligned.text
    rw [ho, hmc] at htext
    have haligned : Aligned finish (Server.closeMessage r finish c).st (Server.closeMessage r finish c).log := by
      rw [hlog, hst]
      have hmem : c.st.messageRef ∈ c.log.filterMap StreamEvent.addedRef := by
        simp [h.aligned.added, ResponsesStream.openRefs, ho]
      refine { h.aligned with
        opensFirst := ?_, added := ?_, done := ?_, terminal := ?_, summary := ?_, text := ?_, messageLast := fun _ => ho }
      · have hquiet := h.aligned.opensFirst.append
          [.outputTextDone c.st.messageRef (shown c.st.messageText),
            .contentPartDone c.st.messageRef (shown c.st.messageText)] (by simp [StreamEvent.doneRef, StreamEvent.doneItem])
        have hpush := hquiet.push
          (e := .outputItemDone c.st.messageIndex (messageItem (responsesItemStatusForFinish finish) c.st))
          fun ref href => by
            rw [List.filterMap_append, List.mem_append]
            left
            cases href
            exact hmem
        simpa using hpush
      · simp [List.filterMap_cons, StreamEvent.addedRef, h.aligned.added, ResponsesStream.openRefs,
          ResponsesStream.reasoningRef, ResponsesStream.messageRef]
      · simp [List.filterMap_cons, StreamEvent.doneItem, h.aligned.done, ResponsesStream.closedItems, hmc,
          reasoningItem, messageItem, reasoningStatus]
      · simp [List.filterMap_cons, StreamEvent.terminalOutput, h.aligned.terminal]
      · simpa [List.filterMap_cons, StreamEvent.summaryDelta, StreamEvent.summaryDone, ResponsesStream.reasoningRef]
          using h.aligned.summary
      · simpa [List.filterMap_cons, StreamEvent.textDelta, StreamEvent.textDone, ResponsesStream.messageRef, ho]
          using htext.close
    refine ⟨⟨hcount, haligned, ?_, ?_, fun hP => ⟨?_, ?_⟩⟩, ?_⟩
    · rw [hst]
      exact h.reasoningClosed
    · rw [hst]
      exact h.mode
    · rw [hlog, hst]
      simpa [List.filterMap_cons, StreamEvent.summaryDelta] using (h.mirrored hP).summary
    · rw [hlog, hst]
      simpa [List.filterMap_cons, StreamEvent.textDelta] using (h.mirrored hP).text
    · rw [hst]
      exact ho.symm

end

/-! ## The calls and the last event -/

section
variable (orders : List ToolSchemaOrder) (finish : Bytes) {c : ResponsesConn}

def callRef (tc : LiveCall × ResponsesToolItem) : ItemRef := (tc.2.outputIndex, tc.2.fcId)

def callEvents (tc : LiveCall × ResponsesToolItem) : List StreamEvent :=
  .outputItemAdded tc.2.outputIndex (.call tc.1 tc.2 .inProgress false) ::
    (if streamsArguments orders tc then [.argumentsDelta (callRef tc) tc.1.arguments, .argumentsDone (callRef tc) tc.1] else []) ++
    [.outputItemDone tc.2.outputIndex (callItem finish tc)]

theorem emitCall_log (tc : LiveCall × ResponsesToolItem) :
    (emitCall orders finish tc c).log = c.log ++ callEvents orders finish tc := by
  rw [emitCall, callEvents]
  split_ifs <;> simp [callRef, callItem]

theorem emitCall_st (tc : LiveCall × ResponsesToolItem) :
    ∃ n, (emitCall orders finish tc c).st = { c.st with sequence := n } := by
  rw [emitCall]
  split_ifs <;>
  · simp only [st_emit]
    exact ⟨_, rfl⟩

theorem Counted.emitCall (h : Counted c.st.sequence c.sent) (tc : LiveCall × ResponsesToolItem) :
    Counted (emitCall orders finish tc c).st.sequence (emitCall orders finish tc c).sent := by
  rw [Server.emitCall]
  refine Counted.emit _ _ ?_
  split
  · exact ((h.emit _ _).emit _ _).emit _ _
  · exact h.emit _ _

theorem emitCalls (items : List (LiveCall × ResponsesToolItem)) (h : Counted c.st.sequence c.sent) :
    let c' := items.foldl (fun c tc => emitCall orders finish tc c) c
    c'.log = c.log ++ items.flatMap (callEvents orders finish) ∧ (∃ n, c'.st = { c.st with sequence := n }) ∧
      Counted c'.st.sequence c'.sent := by
  induction items generalizing c with
  | nil => exact ⟨by simp, ⟨c.st.sequence, rfl⟩, h⟩
  | cons tc items ih =>
    obtain ⟨n, hst⟩ := emitCall_st (c := c) orders finish tc
    obtain ⟨hlog, ⟨m, hst'⟩, hcount⟩ := ih (h.emitCall orders finish tc)
    refine ⟨?_, ⟨m, ?_⟩, hcount⟩
    · rw [List.foldl_cons, hlog, emitCall_log, List.flatMap_cons, List.append_assoc]
    · rw [List.foldl_cons, hst', hst]

/-- What a reader keeps of the events of the calls: one item a call. -/
theorem callEvents_reads {α : Type} (f : StreamEvent → Option α) (g : LiveCall × ResponsesToolItem → Option α)
    (items : List (LiveCall × ResponsesToolItem)) (h : ∀ tc, (callEvents orders finish tc).filterMap f = (g tc).toList) :
    (items.flatMap (callEvents orders finish)).filterMap f = items.filterMap g := by
  induction items with
  | nil => rfl
  | cons tc items ih =>
    rw [List.flatMap_cons, List.filterMap_append, h, ih]
    cases hg : g tc <;> simp [hg]

theorem calls_opensFirst {log : List StreamEvent} (items : List (LiveCall × ResponsesToolItem))
    (h : OpensFirst StreamEvent.addedRef StreamEvent.doneRef log) :
    OpensFirst StreamEvent.addedRef StreamEvent.doneRef (log ++ items.flatMap (callEvents orders finish)) := by
  induction items generalizing log with
  | nil => simpa using h
  | cons tc items ih =>
    have hquiet := h.append (.outputItemAdded tc.2.outputIndex (.call tc.1 tc.2 .inProgress false) ::
      if streamsArguments orders tc then [.argumentsDelta (callRef tc) tc.1.arguments, .argumentsDone (callRef tc) tc.1]
      else []) (by split_ifs <;> simp [StreamEvent.doneRef, StreamEvent.doneItem])
    have hcall := hquiet.push (e := .outputItemDone tc.2.outputIndex (callItem finish tc)) fun ref href => by
      rw [List.filterMap_append, List.mem_append]
      right
      cases href
      exact List.mem_filterMap.mpr ⟨.outputItemAdded tc.2.outputIndex (.call tc.1 tc.2 .inProgress false),
        List.mem_cons_self, rfl⟩
    have hrest := ih hcall
    simp only [List.append_assoc] at hrest
    simpa only [List.flatMap_cons, callEvents, List.append_assoc] using hrest

end

section
variable {r : ResponsesRequest} {createdAt : Int} {fin : FinishArgs} {c : ResponsesConn} {P : Prop}

/-- The events of the calls and the last one. -/
def lastEvents (r : ResponsesRequest) (createdAt : Int) (fin : FinishArgs) (st : ResponsesStream) : List StreamEvent :=
  let items := responsesToolItems fin.newIds st.nextOutputIndex fin.calls
  items.flatMap (callEvents r.toolOrders fin.finish) ++
    [.terminal st.responseId createdAt r.model fin.finish (shownItems fin.finish st ++ items.map (callItem fin.finish))
      (responsesUsage r fin.promptTokens fin.completionTokens)]

def finishCalls (r : ResponsesRequest) (createdAt : Int) (fin : FinishArgs) (c : ResponsesConn) : ResponsesConn :=
  let items := responsesToolItems fin.newIds c.st.nextOutputIndex fin.calls
  let c := { c with st := { c.st with nextOutputIndex := c.st.nextOutputIndex + fin.calls.length } }
  responsesSseCompleted r createdAt fin items (items.foldl (fun c tc => emitCall r.toolOrders fin.finish tc c) c)

variable (r createdAt fin) in
theorem finishCalls_log (h : Counted c.st.sequence c.sent) :
    (finishCalls r createdAt fin c).log = c.log ++ lastEvents r createdAt fin c.st ∧
      Counted (finishCalls r createdAt fin c).st.sequence (finishCalls r createdAt fin c).sent := by
  obtain ⟨hlog, ⟨n, hst⟩, hcount⟩ := emitCalls (c := { c with st := { c.st with
    nextOutputIndex := c.st.nextOutputIndex + fin.calls.length } }) r.toolOrders fin.finish
    (responsesToolItems fin.newIds c.st.nextOutputIndex fin.calls) h
  refine ⟨?_, hcount.emit _ _⟩
  simp only [finishCalls, responsesSseCompleted, log_emit, hlog, hst, log_st, lastEvents, List.append_assoc]
  rfl

end

section
variable {r : ResponsesRequest} {createdAt : Int} {fin : FinishArgs} {c : ResponsesConn} {P : Prop}

theorem toolItems_indexes (newIds : Nat → Bytes × Bytes) (start : Int) (calls : List LiveCall) :
    ((responsesToolItems newIds start calls).map callRef).map Prod.fst =
      (List.range calls.length).map fun i : Nat => start + (i : Int) := by
  rw [responsesToolItems, List.map_map, List.map_map]
  calc calls.zipIdx.map _ = (calls.zipIdx.map Prod.snd).map fun i : Nat => start + (i : Int) := by
        rw [List.map_map]
        rfl
    _ = _ := by rw [List.zipIdx_map_snd, List.range_eq_range']

theorem openRefs_indexes {finish : Bytes} {st : ResponsesStream} {log : List StreamEvent} (h : Aligned finish st log) :
    st.openRefs.map Prod.fst = (List.range st.openRefs.length).map Int.ofNat := by
  have hr := h.reasoningAt
  have hm := h.messageAt
  cases hro : st.reasoningItemOpened <;> cases hmo : st.messageItemOpened <;>
    simp_all [ResponsesStream.openRefs, ResponsesStream.reasoningRef, ResponsesStream.messageRef, List.range_succ]

/-- What the last event lists. -/
def finalOutput (fin : FinishArgs) (st : ResponsesStream) : List OutputItem :=
  shownItems fin.finish st ++ (responsesToolItems fin.newIds st.nextOutputIndex fin.calls).map (callItem fin.finish)

theorem Closed.shownItems (h : Closed fin.finish P c) :
    (c.st.closedItems fin.finish).map itemRef = c.st.openRefs ∧
      (c.st.closedItems fin.finish).map Prod.snd = shownItems fin.finish c.st := by
  have hr := h.reasoningClosed
  have hm := h.messageClosed
  have hra := h.aligned.reasoningAny
  have hma := h.aligned.messageAny
  cases hro : c.st.reasoningItemOpened <;> cases hmo : c.st.messageItemOpened <;>
    simp_all [ResponsesStream.openRefs, ResponsesStream.closedItems, Server.shownItems, ResponsesStream.reasoningRef,
      ResponsesStream.messageRef, itemRef, OutputItem.id, reasoningItem, messageItem]

theorem lastEvents_reads {α : Type} (f : StreamEvent → Option α) (st : ResponsesStream)
    (g : LiveCall × ResponsesToolItem → Option α)
    (hcall : ∀ tc, (callEvents r.toolOrders fin.finish tc).filterMap f = (g tc).toList)
    (hlast : ∀ a b m fi o u, f (.terminal a b m fi o u) = none) :
    (lastEvents r createdAt fin st).filterMap f =
      (responsesToolItems fin.newIds st.nextOutputIndex fin.calls).filterMap g := by
  simp only [lastEvents, List.filterMap_append, callEvents_reads r.toolOrders fin.finish f g _ hcall, List.filterMap_cons,
    hlast, List.filterMap_nil, List.append_nil]

/-- Nothing but items is read off the events of the calls. -/
theorem lastEvents_quiet {α : Type} (f : StreamEvent → Option α) (st : ResponsesStream)
    (hcall : ∀ tc, (callEvents r.toolOrders fin.finish tc).filterMap f = [])
    (hlast : ∀ a b m fi o u, f (.terminal a b m fi o u) = none) : (lastEvents r createdAt fin st).filterMap f = [] := by
  rw [lastEvents_reads f st (fun _ => none) hcall hlast]
  simp

theorem lastEvents_added (st : ResponsesStream) : (lastEvents r createdAt fin st).filterMap StreamEvent.addedRef =
    (responsesToolItems fin.newIds st.nextOutputIndex fin.calls).map callRef := by
  rw [lastEvents_reads StreamEvent.addedRef st (some ∘ callRef), List.filterMap_eq_map]
  · intro tc
    rw [callEvents]
    split_ifs <;> simp [List.filterMap_cons, StreamEvent.addedRef, callRef, OutputItem.id]
  · exact fun _ _ _ _ _ _ => rfl

theorem lastEvents_done (st : ResponsesStream) : (lastEvents r createdAt fin st).filterMap StreamEvent.doneItem =
    (responsesToolItems fin.newIds st.nextOutputIndex fin.calls).map fun tc =>
      (tc.2.outputIndex, callItem fin.finish tc) := by
  rw [lastEvents_reads StreamEvent.doneItem st (some ∘ fun tc => (tc.2.outputIndex, callItem fin.finish tc)),
    List.filterMap_eq_map]
  · intro tc
    rw [callEvents]
    split_ifs <;> simp [List.filterMap_cons, StreamEvent.doneItem]
  · exact fun _ _ _ _ _ _ => rfl

theorem Closed.lifecycle (h : Closed fin.finish P c) :
    Lifecycle (finishCalls r createdAt fin c).sent (finishCalls r createdAt fin c).log (finalOutput fin c.st) := by
  obtain ⟨hlog, hcount⟩ := finishCalls_log r createdAt fin h.counted
  have hal := h.aligned
  obtain ⟨hrefs, hitems⟩ := h.shownItems
  have hadded : (finishCalls r createdAt fin c).log.filterMap StreamEvent.addedRef =
      c.st.openRefs ++ (responsesToolItems fin.newIds c.st.nextOutputIndex fin.calls).map callRef := by
    rw [hlog, List.filterMap_append, hal.added, lastEvents_added]
  have hdone : (finishCalls r createdAt fin c).log.filterMap StreamEvent.doneItem =
      c.st.closedItems fin.finish ++ (responsesToolItems fin.newIds c.st.nextOutputIndex fin.calls).map
        fun tc => (tc.2.outputIndex, callItem fin.finish tc) := by
    rw [hlog, List.filterMap_append, hal.done, lastEvents_done]
  have hsame : (finishCalls r createdAt fin c).log.filterMap StreamEvent.doneRef =
      (finishCalls r createdAt fin c).log.filterMap StreamEvent.addedRef := by
    rw [doneRefs_eq, hdone, hadded, List.map_append, hrefs, List.map_map]
    rfl
  have hindexes : ((finishCalls r createdAt fin c).log.filterMap StreamEvent.addedRef).map Prod.fst =
      (List.range ((finishCalls r createdAt fin c).log.filterMap StreamEvent.addedRef).length).map Int.ofNat := by
    have hlen : ∀ start, (responsesToolItems fin.newIds start fin.calls).length = fin.calls.length := by
      simp [responsesToolItems]
    rw [hadded, List.map_append, openRefs_indexes hal, toolItems_indexes, hal.next, List.length_append, List.length_map, hlen,
      List.range_add, List.map_append, List.map_map]
    rfl
  have hnodup : ((finishCalls r createdAt fin c).log.filterMap StreamEvent.addedRef).Nodup := by
    apply List.Nodup.of_map Prod.fst
    rw [hindexes]
    exact List.nodup_range.map fun _ _ hi => Int.ofNat.inj hi
  have hopens : OpensFirst StreamEvent.addedRef StreamEvent.doneRef (finishCalls r createdAt fin c).log := by
    rw [hlog, lastEvents, ← List.append_assoc]
    exact (calls_opensFirst r.toolOrders fin.finish _ hal.opensFirst).append _ (by simp [StreamEvent.doneRef, StreamEvent.doneItem])
  exact {
    events := rfl
    numbered := hcount.numbered
    indexes := hindexes
    closed_once := by
      intro p e q ref he href
      refine hopens.closed_once hsame hnodup he href ?_
      cases e <;> first | rfl | cases href
    closed_only := hsame
    last := by
      refine ⟨c.log ++ (responsesToolItems fin.newIds c.st.nextOutputIndex fin.calls).flatMap
        (callEvents r.toolOrders fin.finish), .terminal c.st.responseId createdAt r.model fin.finish (finalOutput fin c.st)
          (responsesUsage r fin.promptTokens fin.completionTokens), ?_, ?_, rfl⟩
      · rw [hlog, lastEvents, List.append_assoc]
        rfl
      · rw [List.filterMap_append, hal.terminal, callEvents_reads r.toolOrders fin.finish _ (fun _ => none)]
        · simp
        · intro tc
          rw [callEvents]
          split_ifs <;> simp [List.filterMap_cons, StreamEvent.terminalOutput]
    output_added := by
      rw [hadded, List.map_append, ← hrefs, finalOutput, List.map_append, ← hitems, List.map_map, List.map_map, List.map_map,
        List.map_map]
      rfl
    output_done := by
      rw [hdone, List.map_append, hitems, finalOutput, List.map_map]
      rfl }

variable (r createdAt) in
theorem Closed.texts (h : Closed fin.finish P c) (hm : Mirrored c) :
    let log := (finishCalls r createdAt fin c).log
    Accumulates (log.filterMap StreamEvent.textDelta) (log.filterMap StreamEvent.textDone)
        ((finalOutput fin c.st).filterMap OutputItem.text) ∧
      Accumulates (log.filterMap StreamEvent.summaryDelta) (log.filterMap StreamEvent.summaryDone)
        ((finalOutput fin c.st).filterMap OutputItem.summary) := by
  obtain ⟨hlog, -⟩ := finishCalls_log r createdAt fin h.counted
  have hquiet : ∀ f : StreamEvent → Option (ItemRef × Bytes),
      (∀ i it, f (.outputItemAdded i it) = none) → (∀ i it, f (.outputItemDone i it) = none) →
      (∀ ref a, f (.argumentsDelta ref a) = none) → (∀ ref a, f (.argumentsDone ref a) = none) →
      (∀ a b m fi o u, f (.terminal a b m fi o u) = none) →
      (finishCalls r createdAt fin c).log.filterMap f = c.log.filterMap f := by
    intro f ha hd hx hy hz
    rw [hlog, List.filterMap_append, lastEvents_quiet f c.st _ hz, List.append_nil]
    intro tc
    rw [callEvents]
    split_ifs <;> simp [ha, hd, hx, hy]
  have hcalls : ∀ f : OutputItem → Option (Bytes × Bytes), (∀ tc, f (callItem fin.finish tc) = none) →
      (finalOutput fin c.st).filterMap f = (Server.shownItems fin.finish c.st).filterMap f := by
    intro f hf
    rw [finalOutput, List.filterMap_append, List.filterMap_map, List.append_right_eq_self]
    exact List.filterMap_eq_nil_iff.mpr fun tc _ => hf tc
  have htext := h.aligned.text
  have hsum := h.aligned.summary
  rw [h.messageClosed] at htext
  rw [h.reasoningClosed] at hsum
  refine ⟨?_, ?_⟩
  · rw [hquiet _ (fun _ _ => rfl) (fun _ _ => rfl) (fun _ _ => rfl) (fun _ _ => rfl) (fun _ _ _ _ _ _ => rfl),
      hquiet _ (fun _ _ => rfl) (fun _ _ => rfl) (fun _ _ => rfl) (fun _ _ => rfl) (fun _ _ _ _ _ _ => rfl),
      hcalls _ fun _ => rfl]
    have hlisted : (Server.shownItems fin.finish c.st).filterMap OutputItem.text =
        if c.st.messageItemOpened then [(c.st.messageRef.2, shown c.st.messageText)] else [] := by
      rw [Server.shownItems, h.aligned.messageAny]
      split_ifs <;> simp [List.filterMap_cons, OutputItem.text, reasoningItem, messageItem, ResponsesStream.messageRef]
    rw [hlisted]
    exact htext.accumulates hm.text
  · rw [hquiet _ (fun _ _ => rfl) (fun _ _ => rfl) (fun _ _ => rfl) (fun _ _ => rfl) (fun _ _ _ _ _ _ => rfl),
      hquiet _ (fun _ _ => rfl) (fun _ _ => rfl) (fun _ _ => rfl) (fun _ _ => rfl) (fun _ _ _ _ _ _ => rfl),
      hcalls _ fun _ => rfl]
    have hlisted : (Server.shownItems fin.finish c.st).filterMap OutputItem.summary =
        if c.st.reasoningItemOpened then [(c.st.reasoningRef.2, shown c.st.reasoningText)] else [] := by
      rw [Server.shownItems, h.aligned.reasoningAny]
      split_ifs <;> simp [List.filterMap_cons, OutputItem.summary, reasoningItem, messageItem, ResponsesStream.reasoningRef]
    rw [hlisted]
    exact hsum.accumulates hm.summary

end

/-! ## Whole streams -/

/-- No NUL among the bytes that any step can show: an update, the last one, and the tail
    of a tool call that turned out to be text. -/
def runClean (r : ResponsesRequest) (fin : FinishArgs) : List (Bytes × Nat) → ResponsesConn → Bool
  | [], c =>
    updateClean r fin.raw fin.rawLen true c.st &&
      (!fin.recoveredContent || !((fin.raw.take fin.rawLen).drop
        (responsesSseStreamUpdate r fin.raw fin.rawLen true c).st.emitPos).contains 0)
  | u :: updates, c =>
    updateClean r u.1 u.2 false c.st && runClean r fin updates (responsesSseStreamUpdate r u.1 u.2 false c)

section
variable {r : ResponsesRequest} (createdAt : Int) {fin : FinishArgs} {c : ResponsesConn} {P : Prop}

theorem Running.finish (h : Running fin.finish P c) :
    ∃ c', Closed fin.finish (P ∧ runClean r fin [] c = true) c' ∧
      responsesSseFinishLive r createdAt fin c = finishCalls r createdAt fin c' := by
  obtain ⟨hup, hmode⟩ := h.update r fin.raw fin.rawLen true
  obtain ⟨hclosed, hmc, hpos⟩ := hup.closeReasoning (r := r) (hmode rfl)
  obtain ⟨hrec, hmc'⟩ := hclosed.recoverTail r fin (Q := P ∧ runClean r fin [] c = true) hmc
    (fun hq => ⟨hq.1, by
      have := hq.2
      rw [runClean, Bool.and_eq_true] at this
      exact this.1⟩)
    (fun hq hr => by
      have := hq.2
      rw [runClean, Bool.and_eq_true, hr] at this
      rw [hpos]
      simpa using this.2)
  exact ⟨_, hrec.closeMessage (r := r) hmc', rfl⟩

theorem Running.run (updates : List (Bytes × Nat)) (h : Running fin.finish P c) :
    ∃ c', Closed fin.finish (P ∧ runClean r fin updates c = true) c' ∧
      responsesSseFinishLive r createdAt fin (responsesUpdates r updates c) = finishCalls r createdAt fin c' := by
  induction updates generalizing P c with
  | nil => exact h.finish createdAt
  | cons u updates ih =>
    obtain ⟨c', hclosed, heq⟩ := ih (h.update r u.1 u.2 false).1
    refine ⟨c', ?_, heq⟩
    have hP : P ∧ runClean r fin (u :: updates) c = true →
        (P ∧ updateClean r u.1 u.2 false c.st = true) ∧
          runClean r fin updates (responsesSseStreamUpdate r u.1 u.2 false c) = true := by
      rintro ⟨hp, hc⟩
      rw [runClean, Bool.and_eq_true] at hc
      exact ⟨⟨hp, hc.1⟩, hc.2⟩
    exact { hclosed with mirrored := fun hq => hclosed.mirrored (hP hq) }

theorem responsesStart_running (finish : Bytes) (r : ResponsesRequest) (ids : ResponsesIds) :
    Running finish True (responsesStart r ids createdAt) := by
  have hlog : (responsesStart r ids createdAt).log = [.created ids.response createdAt r.model] := by
    rw [responsesStart, log_emit]
    rfl
  have hst : (responsesStart r ids createdAt).st =
      { responsesStreamInit r ids with active := true, sequence := 1 } := by
    rw [responsesStart, st_emit]
    rfl
  refine ⟨?_, ?_, by rw [hst]; rfl, by rw [hst]; rfl, by rw [hst], fun _ => ⟨?_, ?_⟩⟩
  · exact Counted.emit _ _ ⟨rfl, rfl⟩
  · rw [hlog, hst]
    have hempty : OpensFirst StreamEvent.addedRef StreamEvent.doneRef [StreamEvent.created ids.response createdAt r.model] :=
      opensFirst_nil.append _ (by simp [StreamEvent.doneRef, StreamEvent.doneItem])
    exact ⟨hempty, rfl, rfl, rfl, ⟨by simp [StreamEvent.summaryDelta], by simp [StreamEvent.summaryDelta, responsesStreamInit], rfl⟩,
      ⟨by simp [StreamEvent.textDelta], by simp [StreamEvent.textDelta, responsesStreamInit], rfl⟩,
      fun h => Bool.noConfusion h, fun h => Bool.noConfusion h, rfl, rfl, rfl, rfl, rfl, fun _ => rfl, fun h => Bool.noConfusion h⟩
  · rw [hlog, hst]
    exact ⟨by simp [responsesStreamInit], rfl⟩
  · rw [hlog, hst]
    exact ⟨by simp [responsesStreamInit], rfl⟩

end

/-- Whatever the texts are: numbers, indexes, closings and the last event's list. -/
theorem responses_lifecycle (r : ResponsesRequest) (ids : ResponsesIds) (createdAt : Int) (updates : List (Bytes × Nat))
    (fin : FinishArgs) : ∃ log output, Lifecycle (responsesRun r ids createdAt updates fin) log output := by
  obtain ⟨c', hclosed, heq⟩ := (responsesStart_running createdAt fin.finish r ids).run (r := r) createdAt updates
  rw [responsesRun, heq]
  exact ⟨_, _, hclosed.lifecycle⟩

/-- A stream that shows no NUL agrees with itself. -/
theorem responses_consistent (r : ResponsesRequest) (ids : ResponsesIds) (createdAt : Int) (updates : List (Bytes × Nat))
    (fin : FinishArgs) (hclean : runClean r fin updates (responsesStart r ids createdAt) = true) :
    SelfConsistent (responsesRun r ids createdAt updates fin) := by
  obtain ⟨c', hclosed, heq⟩ := (responsesStart_running createdAt fin.finish r ids).run (r := r) createdAt updates
  rw [responsesRun, heq]
  obtain ⟨htext, hsum⟩ := hclosed.texts r createdAt (hclosed.mirrored ⟨trivial, hclean⟩)
  exact ⟨_, _, hclosed.lifecycle, htext, hsum⟩

/-! ## Sample streams -/

def sampleIds : ResponsesIds := ⟨utf8 "resp_1", utf8 "rs_1", utf8 "msg_1"⟩

/-- A request that asked for reasoning summaries and has tools. -/
def summaryRequest : ResponsesRequest := ⟨true, true, true, utf8 "m", [], 0, 0⟩

def sampleCall : LiveCall := { name := utf8 "f", arguments := utf8 "\x7b\x7d", id := [] }

/-- A text that ends in a call of `f`. -/
def calledText : Bytes := utf8 "why</think>so<tool_calls>"

def calledFinish : FinishArgs :=
  ⟨calledText, calledText.length, false, [sampleCall], utf8 "tool_calls", 3, 5, fun _ => (utf8 "fc_1", utf8 "call_1")⟩

theorem responses_consistent_sample :
    SelfConsistent (responsesRun summaryRequest sampleIds 0 [(calledText.take 12, 12)] calledFinish) :=
  responses_consistent _ _ _ _ _ (by decide +kernel)

def plainRequest : ResponsesRequest := ⟨false, false, false, utf8 "m", [], 0, 0⟩

/-- The second token starts after a NUL. -/
def nulFinish : FinishArgs := ⟨[97, 0, 98], 3, false, [], utf8 "stop", 1, 2, fun _ => ([], [])⟩

/-- The deltas are `a` and `b`, the text at the end is `a`. -/
theorem nul_splits_text :
    ¬∀ (r : ResponsesRequest) (ids : ResponsesIds) (createdAt : Int) (updates : List (Bytes × Nat)) (fin : FinishArgs),
      SelfConsistent (responsesRun r ids createdAt updates fin) := by
  intro h
  obtain ⟨log, output, hlife, htext, -⟩ := h plainRequest sampleIds 0 [([97, 0], 2)] nulFinish
  rw [← hlife.events] at htext
  have hdeltas : ((responsesRun plainRequest sampleIds 0 [([97, 0], 2)] nulFinish).map SentEvent.event).filterMap
      StreamEvent.textDelta = [((0, utf8 "msg_1"), [97]), ((0, utf8 "msg_1"), [98])] := by decide +kernel
  have hdones : ((responsesRun plainRequest sampleIds 0 [([97, 0], 2)] nulFinish).map SentEvent.event).filterMap
      StreamEvent.textDone = [((0, utf8 "msg_1"), [97])] := by decide +kernel
  rw [hdeltas, hdones] at htext
  rcases htext with ⟨hnil, -⟩ | ⟨ref, text, -, hwhole, hdone, -⟩
  · exact absurd hnil (by simp)
  · rw [← hwhole] at hdone
    simp at hdone

end Ds4.Server
