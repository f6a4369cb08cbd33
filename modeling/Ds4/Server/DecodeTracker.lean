import Ds4.Runs
import Ds4.Turns
import Ds4.Server.StreamLimit

/- The tracker that tells, token by token, whether the text stands inside the
   syntax of a tool block or in a payload.

   Correspondence (C ↔ Lean):
     `dsml_decode_state`, `dsml_track_mode`, `dsml_decode_tracker` ↔ `DecodeState`, `TrackMode`, `DecodeTracker`
     `dsml_find_tool_start`, `dsml_find_tool_start_from`           ↔ `dsmlFindToolStart`, `dsmlFindToolStartFrom`
     `raw_full_lit`, `raw_partial_lit_min`                         ↔ `startsWith`, `partialMin`, on the text at `pos`
     `dsml_attr_is_string_true`                                    ↔ `dsmlAttrIsStringTrue`, on the tag
     `dsml_decode_tracker_update`                                  ↔ `dsmlDecodeTrackerUpdate`, its `for` in `trackTurn`
   A turn is one pass of an inner loop: a byte, a blank or a tag. -/
namespace Ds4.Server
open Ds4 Bytes Turns

inductive DecodeState where
  | outside
  | structural
  | stringBody
  | jsonStructural
  | jsonString
  deriving DecidableEq, Repr

inductive TrackMode where
  | search
  | structural
  | stringBody
  | jsonParam
  | done
  deriving DecidableEq, Repr

structure DecodeTracker where
  mode : TrackMode
  decode : DecodeState
  syn : Option DsmlStyle
  pos : Nat
  jsonInString : Bool
  jsonEscaped : Bool
  deriving DecidableEq

def dsmlDecodeTrackerInit : DecodeTracker :=
  { mode := .search, decode := .outside, syn := none, pos := 0, jsonInString := false, jsonEscaped := false }

/-- The tags of the block the tracker is in. The search sets `syn` before any of them is used. -/
def DecodeTracker.tags (dt : DecodeTracker) : DsmlSyntax := dsmlSyntax (dt.syn.getD .dsml)

def dsmlStyles : List DsmlStyle := [.dsml, .short, .plain]

def dsmlMaxToolStartLen : Nat :=
  dsmlStyles.foldl (fun most style => max most (dsmlSyntax style).toolCallsStart.length) 0

/-- The better of the best find so far and one more spelling. -/
def betterStart (raw : Bytes) (best : Option (Nat × DsmlStyle)) (style : DsmlStyle) : Option (Nat × DsmlStyle) :=
  match strstr (dsmlSyntax style).toolCallsStart raw with
  | none => best
  | some (before, _) =>
    match best with
    | none => some (before.length, style)
    | some (n, old) => if before.length < n then some (before.length, style) else some (n, old)

/-- Where the first opening marker stands, and its spelling. -/
def dsmlFindToolStart (raw : Bytes) : Option (Nat × DsmlStyle) := dsmlStyles.foldl (betterStart raw) none

/-- The place after the first opening marker from `start` on, and its spelling. -/
def dsmlFindToolStartFrom (raw : Bytes) (start : Nat) : Option (Nat × DsmlStyle) :=
  if start > raw.length then none
  else
    match dsmlFindToolStart (raw.drop start) with
    | none => none
    | some (n, style) => some (start + (n + (dsmlSyntax style).toolCallsStart.length), style)

/-- The text is a beginning of the tag, `least` bytes of it at least, and not the whole. -/
def partialMin (rest lit : Bytes) (least : Nat) : Bool := rest.length ≥ least && partialOf rest lit

def dsmlAttrIsStringTrue (tag : Bytes) : Bool := dsmlAttr (cstr tag) (utf8 "string") = some (utf8 "true")

def trackSearch (raw : Bytes) (dt : DecodeTracker) : Turn DecodeTracker :=
  match dsmlFindToolStartFrom raw dt.pos with
  | none => .stop { dt with pos := raw.length - dsmlMaxToolStartLen, decode := .outside }
  | some (pos, style) => .goOn { dt with syn := some style, pos, mode := .structural, decode := .structural }

def trackStringBody (raw : Bytes) (dt : DecodeTracker) : Turn DecodeTracker :=
  match raw.drop dt.pos with
  | [] => .stop { dt with decode := .stringBody }
  | c :: rest =>
    if startsWith dt.tags.paramEnd (c :: rest) then
      .goOn { dt with pos := dt.pos + dt.tags.paramEnd.length, mode := .structural, decode := .structural }
    else if partialMin (c :: rest) dt.tags.paramEnd 2 then .stop { dt with decode := .structural }
    else .goOn { dt with pos := dt.pos + 1 }

/-- The flags after one more byte of a JSON value. -/
def jsonByte (c : UInt8) (dt : DecodeTracker) : DecodeTracker :=
  if dt.jsonInString then
    if dt.jsonEscaped then { dt with jsonEscaped := false }
    else if c = 92 then { dt with jsonEscaped := true }
    else if c = 34 then { dt with jsonInString := false }
    else dt
  else if c = 34 then { dt with jsonInString := true }
  else dt

def trackJsonParam (raw : Bytes) (dt : DecodeTracker) : Turn DecodeTracker :=
  match raw.drop dt.pos with
  | [] => .stop { dt with decode := if dt.jsonInString then .jsonString else .jsonStructural }
  | c :: rest =>
    if !dt.jsonInString && startsWith dt.tags.paramEnd (c :: rest) then
      .goOn { dt with pos := dt.pos + dt.tags.paramEnd.length, mode := .structural, decode := .structural }
    else if !dt.jsonInString && partialMin (c :: rest) dt.tags.paramEnd 2 then .stop { dt with decode := .structural }
    else .goOn (jsonByte c { dt with pos := dt.pos + 1 })

def trackStructural (raw : Bytes) (dt : DecodeTracker) : Turn DecodeTracker :=
  match raw.drop dt.pos with
  | [] => .stop { dt with decode := .structural }
  | c :: rest =>
    if isSpace c then .goOn { dt with pos := dt.pos + 1 }
    else if startsWith dt.tags.toolCallsEnd (c :: rest) then
      .stop { dt with mode := .done, pos := dt.pos + dt.tags.toolCallsEnd.length, decode := .outside }
    else if startsWith dt.tags.invokeEnd (c :: rest) then .goOn { dt with pos := dt.pos + dt.tags.invokeEnd.length }
    else if startsWith dt.tags.invokeStart (c :: rest) then
      match splitTag (c :: rest) with
      | none => .stop { dt with decode := .structural }
      | some (tag, _) => .goOn { dt with pos := dt.pos + tag.length }
    else if startsWith dt.tags.paramStart (c :: rest) then
      match splitTag (c :: rest) with
      | none => .stop { dt with decode := .structural }
      | some (tag, _) =>
        if dsmlAttrIsStringTrue tag then
          .goOn { dt with pos := dt.pos + tag.length, mode := .stringBody, decode := .stringBody }
        else
          .goOn { dt with
            pos := dt.pos + tag.length
            mode := .jsonParam
            jsonInString := false
            jsonEscaped := false
            decode := .jsonStructural }
    else .stop { dt with decode := .structural } -- a tag that has only begun, or no tag

def trackTurn (raw : Bytes) (dt : DecodeTracker) : Turn DecodeTracker :=
  match dt.mode with
  | .done => .stop { dt with decode := .outside }
  | .search => trackSearch raw dt
  | .stringBody => trackStringBody raw dt
  | .jsonParam => trackJsonParam raw dt
  | .structural => trackStructural raw dt

/-- Each turn but the last takes a byte at least, so the text bounds them. -/
def dsmlDecodeTrackerUpdate (raw : Bytes) (dt : DecodeTracker) : DecodeTracker :=
  loop (trackTurn raw) (raw.length + 1) dt

end Ds4.Server
