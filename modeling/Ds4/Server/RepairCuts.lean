import Ds4.Server.DsmlRepair

/- Rendered tool calls cut off outside their tags.

   A rendered block is a list of tags and of texts between them (`blockPieces`); a cut
   leaves the first of these, the last of them in part where it is a text (`PieceCut`).

   PROVED here: the pieces are the rendering (`blockPieces_text`), and a cut behind the
   opening of the block leaves calls that are whole and of the next one, if its tag was
   written, parameters that are whole and a part of the value after them (`cutAt`). -/
namespace Ds4.Server
open Bytes

/-! ## Pieces -/

/-- A tag with what stands in its brackets behind the name, or a text. -/
inductive Piece
  | tag (t : DsmlTag) (attrs : Bytes)
  | text (v : Bytes)

def Piece.bytes : Piece → Bytes
  | .tag t attrs => dsmlSyn.tag t ++ attrs
  | .text v => v

def piecesText (ps : List Piece) : Bytes := ps.flatMap Piece.bytes

/-- What is left of the pieces by a cut that is not inside a tag. -/
inductive PieceCut : List Piece → Bytes → Prop
  | here {ps : List Piece} : PieceCut ps []
  | inside {v p : Bytes} {ps : List Piece} : p <+: v → PieceCut (.text v :: ps) p
  | behind {x : Piece} {ps : List Piece} {t : Bytes} : PieceCut ps t → PieceCut (x :: ps) (x.bytes ++ t)

/-- The parameters of a call: the members of its arguments, or all of them as one text. -/
def callArgs (tc : ToolCall) : List JsonArg :=
  (jsonArgsParse tc.arguments).getD [{ key := utf8 "arguments", value := tc.arguments, isString := true }]

def typeText (a : JsonArg) : Bytes := utf8 (if a.isString then "true" else "false")

def nameAttr (name : Bytes) : Bytes := 32 :: (utf8 "name" ++ utf8 "=\"" ++ (appendDsmlAttrEscaped name ++ [34]))

def stringAttr (a : JsonArg) : Bytes := 32 :: (utf8 "string" ++ utf8 "=\"" ++ (typeText a ++ [34]))

def argPieces (a : JsonArg) : List Piece :=
  [.tag .paramStart (nameAttr a.key ++ stringAttr a ++ [62]), .text (paramBody a), .tag .paramEnd [], .text [10]]

def callPieces (tc : ToolCall) : List Piece :=
  .tag .invokeStart (nameAttr tc.name ++ [62]) :: .text [10] ::
    ((callArgs tc).flatMap argPieces ++ [.tag .invokeEnd [], .text [10]])

def blockPieces (calls : List ToolCall) : List Piece :=
  .text [10, 10] :: .tag .toolCallsStart [] :: .text [10] ::
    (calls.flatMap callPieces ++ [.tag .toolCallsEnd []])

/-- The text of a parameter up to its closing tag. -/
def argText (a : JsonArg) (body : Bytes) : Bytes := paramTag a.key (typeText a) ++ 62 :: body

theorem piecesText_cons (x : Piece) (ps : List Piece) : piecesText (x :: ps) = x.bytes ++ piecesText ps :=
  List.flatMap_cons

theorem piecesText_append (ps qs : List Piece) : piecesText (ps ++ qs) = piecesText ps ++ piecesText qs :=
  List.flatMap_append

theorem piecesText_flatMap {α : Type} (f : α → List Piece) (l : List α) :
    piecesText (l.flatMap f) = l.flatMap fun x => piecesText (f x) := List.flatMap_assoc

theorem invokeTag_text (name : Bytes) :
    (Piece.tag .invokeStart (nameAttr name ++ [62])).bytes = invokeTag name ++ [62] := by
  have h : utf8 "<｜DSML｜invoke " = dsmlSyn.tag .invokeStart ++ [32] := by decide
  simp only [Piece.bytes, nameAttr, invokeTag, h, List.append_assoc, List.cons_append, List.nil_append]

theorem paramTag_text (a : JsonArg) : (Piece.tag .paramStart (nameAttr a.key ++ stringAttr a ++ [62])).bytes =
    argText a [] := by
  have h : utf8 "<｜DSML｜parameter " = dsmlSyn.tag .paramStart ++ [32] := by decide
  have hspace : utf8 " " = [32] := rfl
  simp only [Piece.bytes, nameAttr, stringAttr, argText, paramTag, h, hspace, List.append_assoc, List.cons_append,
    List.nil_append]

theorem argPieces_text (a : JsonArg) : piecesText (argPieces a) = appendDsmlArg a := by
  have h := appendDsmlArg_eq a []
  rw [List.append_nil] at h
  have htag := paramTag_text a
  rw [h, argPieces, piecesText_cons, htag]
  simp only [piecesText, Piece.bytes, argText, typeText, List.flatMap_cons, List.flatMap_nil, List.append_assoc,
    List.cons_append, List.nil_append, List.append_nil]
  rfl

theorem callPieces_text (tc : ToolCall) : piecesText (callPieces tc) = appendDsmlToolCall tc := by
  have h1 : utf8 "<｜DSML｜invoke name=\"" = utf8 "<｜DSML｜invoke " ++ (utf8 "name" ++ utf8 "=\"") := by decide
  have h2 : utf8 "\">\n" = [34, 62, 10] := by decide
  have h3 : utf8 "</｜DSML｜invoke>\n" = dsmlSyn.tag .invokeEnd ++ [10] := by decide
  have hargs : piecesText ((callArgs tc).flatMap argPieces) = (appendDsmlArgumentsFromJson tc.arguments).getD
      (utf8 "<｜DSML｜parameter name=\"arguments\" string=\"true\">" ++
        appendDsmlParameterText tc.arguments ++ utf8 "</｜DSML｜parameter>\n") := by
    rw [piecesText_flatMap]
    simp only [argPieces_text, callArgs, appendDsmlArgumentsFromJson]
    cases jsonArgsParse tc.arguments with
    | some args => rfl
    | none =>
      have h4 : utf8 "<｜DSML｜parameter name=\"arguments\" string=\"true\">" =
          utf8 "<｜DSML｜parameter name=\"" ++ appendDsmlAttrEscaped (utf8 "arguments") ++ utf8 "\" string=\"" ++
            utf8 "true" ++ utf8 "\">" := by decide
      simp only [Option.map_none, Option.getD_none, List.flatMap_cons, List.flatMap_nil, List.append_nil, h4,
        appendDsmlArg, if_true]
  rw [callPieces, piecesText_cons, piecesText_cons, piecesText_append, invokeTag_text, hargs, appendDsmlToolCall]
  simp only [piecesText, Piece.bytes, invokeTag, h1, h2, h3, List.flatMap_cons, List.flatMap_nil, List.append_assoc,
    List.cons_append, List.nil_append, List.append_nil]

/-- The pieces of a block are what the renderer writes. -/
theorem blockPieces_text (calls : List ToolCall) (hne : calls ≠ []) :
    piecesText (blockPieces calls) = appendDsmlToolCallsText [] calls := by
  have h1 : utf8 "\n\n<｜DSML｜tool_calls>\n" = [10, 10] ++ (dsmlSyn.tag .toolCallsStart ++ [10]) := by decide
  have h2 : utf8 "</｜DSML｜tool_calls>" = dsmlSyn.tag .toolCallsEnd := by decide
  rw [appendDsmlToolCallsText, if_neg hne, if_neg (by simp), blockPieces, piecesText_cons, piecesText_cons,
    piecesText_cons, piecesText_append, piecesText_flatMap, h1, h2]
  simp only [callPieces_text]
  simp only [piecesText, Piece.bytes, List.flatMap_cons, List.flatMap_nil, List.append_assoc,
    List.cons_append, List.nil_append, List.append_nil]

/-! ## Where a cut stands -/

/-- Parameters, each up to its closing tag, with blanks around them. -/
inductive ParamsText : List JsonArg → Bytes → Prop
  | nil {w : Bytes} : Blank w → ParamsText [] w
  | cons {w k : Bytes} {a : JsonArg} {as : List JsonArg} : Blank w → ParamsText as k →
      ParamsText (a :: as) (w ++ (argText a (paramBody a) ++ (dsmlSyn.tag .paramEnd ++ k)))

/-- Calls, each up to its closing tag, with blanks around them. -/
inductive CallsText : List ToolCall → Bytes → Prop
  | nil {w : Bytes} : Blank w → CallsText [] w
  | cons {w s k : Bytes} {c : ToolCall} {cs : List ToolCall} : Blank w → ParamsText (callArgs c) s →
      CallsText cs k → CallsText (c :: cs) (w ++ (invokeTag c.name ++ 62 :: (s ++ (dsmlSyn.tag .invokeEnd ++ k))))

/-- The call a cut is in: its whole parameters, and the one it is in with what is left of
    its value. -/
structure CutCall where
  call : ToolCall
  args : List JsonArg
  value : Option (JsonArg × Bytes)

/-- What is left of a call, from its tag on. -/
inductive CallCut : CutCall → Bytes → Prop
  | params {c : ToolCall} {args r : List JsonArg} {w : Bytes} : callArgs c = args ++ r → ParamsText args w →
      CallCut ⟨c, args, none⟩ (invokeTag c.name ++ 62 :: w)
  | value {c : ToolCall} {args r : List JsonArg} {a : JsonArg} {w p : Bytes} : callArgs c = args ++ a :: r →
      ParamsText args w → p <+: paramBody a →
      CallCut ⟨c, args, some (a, p)⟩ (invokeTag c.name ++ 62 :: (w ++ argText a p))

/-- What is left behind the opening tag: whole calls, and the call the cut is in if any. -/
inductive CutAt (calls : List ToolCall) : List ToolCall → Option CutCall → Bytes → Prop
  | between {done r : List ToolCall} {u : Bytes} : calls = done ++ r → CallsText done u →
      CutAt calls done none u
  | call {done r : List ToolCall} {x : CutCall} {u v : Bytes} : calls = done ++ x.call :: r → CallsText done u →
      CallCut x v → CutAt calls done (some x) (u ++ v)

theorem blank_line : Blank [10] := by
  intro c hc
  obtain rfl := List.mem_singleton.mp hc
  rfl

theorem Blank.shorter {w v : Bytes} (hv : Blank v) (h : w <+: v) : Blank w := fun c hc => hv c (h.subset hc)

theorem ParamsText.blank {as : List JsonArg} {w k : Bytes} (hw : Blank w) (h : ParamsText as k) :
    ParamsText as (w ++ k) := by
  cases h with
  | nil hk => exact .nil (hw.append hk)
  | cons hk hs =>
    rw [← List.append_assoc]
    exact .cons (hw.append hk) hs

theorem CallsText.blank {cs : List ToolCall} {w k : Bytes} (hw : Blank w) (h : CallsText cs k) :
    CallsText cs (w ++ k) := by
  cases h with
  | nil hk => exact .nil (hw.append hk)
  | cons hk hs hcs =>
    rw [← List.append_assoc]
    exact .cons (hw.append hk) hs hcs

theorem argText_append (a : JsonArg) (body k : Bytes) : argText a body ++ k = argText a [] ++ (body ++ k) := by
  simp only [argText, List.append_assoc, List.cons_append, List.nil_append]

/-- What follows the last newline of a text piece. -/
theorem PieceCut.line {ps : List Piece} {t : Bytes} (h : PieceCut (.text [10] :: ps) t) :
    Blank t ∨ ∃ u, t = 10 :: u ∧ PieceCut ps u := by
  cases h with
  | here => exact .inl blank_nil
  | inside hp => exact .inl (Blank.shorter blank_line hp)
  | behind h => exact .inr ⟨_, rfl, h⟩

/-- A cut among the parameters of a call, or behind them. -/
theorem params_cut {tail : List Piece} {args : List JsonArg} {w : Bytes} (h : PieceCut (args.flatMap argPieces ++ tail) w) :
    (∃ done rest, args = done ++ rest ∧ ParamsText done w) ∨
    (∃ done a rest s p, args = done ++ a :: rest ∧ ParamsText done s ∧ p <+: paramBody a ∧ w = s ++ argText a p) ∨
    ∃ s v, ParamsText args s ∧ w = s ++ v ∧ PieceCut tail v := by
  induction args generalizing w with
  | nil => exact .inr (.inr ⟨[], w, .nil blank_nil, rfl, h⟩)
  | cons a args ih =>
    have hempty : ParamsText [] [] := .nil blank_nil
    rw [List.flatMap_cons, List.append_assoc] at h
    cases h with
    | here => exact .inl ⟨[], a :: args, rfl, hempty⟩
    | behind h =>
      rw [paramTag_text]
      have hvalue : ∀ {p : Bytes}, p <+: paramBody a → ∃ done b rest s q, a :: args = done ++ b :: rest ∧
          ParamsText done s ∧ q <+: paramBody b ∧ argText a [] ++ p = s ++ argText b q := by
        intro p hp
        refine ⟨[], a, args, [], p, rfl, hempty, hp, ?_⟩
        have := argText_append a p []
        rw [List.append_nil, List.append_nil] at this
        exact this.symm
      cases h with
      | here => exact .inr (.inl (hvalue List.nil_prefix))
      | inside hp => exact .inr (.inl (hvalue hp))
      | behind h =>
        cases h with
        | here =>
          have := hvalue (List.prefix_refl (paramBody a))
          rw [← List.append_nil (paramBody a)] at this
          exact .inr (.inl this)
        | behind h =>
          -- the parameter is whole
          have htext : ∀ u, argText a [] ++ (paramBody a ++ (dsmlSyn.tag .paramEnd ++ u)) =
              [] ++ (argText a (paramBody a) ++ (dsmlSyn.tag .paramEnd ++ u)) := by
            intro u
            rw [argText_append a (paramBody a), List.nil_append]
          have hwhole : ∀ {as : List JsonArg} {k : Bytes}, ParamsText as k →
              ParamsText (a :: as) (argText a [] ++ (paramBody a ++ (dsmlSyn.tag .paramEnd ++ k))) := by
            intro as k hk
            rw [htext]
            exact .cons blank_nil hk
          simp only [Piece.bytes, List.append_nil]
          rcases h.line with hblank | ⟨u, rfl, hcut⟩
          · exact .inl ⟨[a], args, rfl, hwhole (.nil hblank)⟩
          · rcases ih hcut with ⟨done, rest, rfl, hdone⟩ | ⟨done, b, rest, s, p, rfl, hs, hp, rfl⟩ | ⟨s, v, hs, rfl, hv⟩
            · exact .inl ⟨a :: done, rest, rfl, hwhole (hdone.blank blank_line)⟩
            · refine .inr (.inl ⟨a :: done, b, rest, _, p, rfl, hwhole (hs.blank blank_line), hp, ?_⟩)
              simp only [List.append_assoc, List.cons_append, List.nil_append]
            · refine .inr (.inr ⟨_, v, hwhole (hs.blank blank_line), ?_, hv⟩)
              simp only [List.append_assoc, List.cons_append, List.nil_append]

/-- A cut among the calls of a block. -/
theorem calls_cut {calls : List ToolCall} {u : Bytes} (h : PieceCut (calls.flatMap callPieces) u) :
    ∃ done part, CutAt calls done part u := by
  induction calls generalizing u with
  | nil =>
    cases h
    exact ⟨[], none, .between (r := []) rfl (.nil blank_nil)⟩
  | cons c calls ih =>
    have hempty : CallsText [] [] := .nil blank_nil
    rw [List.flatMap_cons, callPieces, List.cons_append, List.cons_append, List.append_assoc] at h
    cases h with
    | here => exact ⟨[], none, .between (r := c :: calls) rfl hempty⟩
    | behind h =>
      rw [invokeTag_text, List.append_assoc]
      have hcall : ∀ {x : CutCall} {v : Bytes}, x.call = c → CallCut x v →
          ∃ done part, CutAt (c :: calls) done part v := by
        rintro x v rfl hx
        exact ⟨[], some x, .call (r := calls) (u := []) rfl hempty hx⟩
      rcases h.line with hblank | ⟨v, rfl, hcut⟩
      · exact hcall (x := ⟨c, [], none⟩) rfl (.params (r := callArgs c) rfl (.nil hblank))
      · rcases params_cut hcut with ⟨args, rest, hargs, hs⟩ | ⟨args, a, rest, s, p, hargs, hs, hp, rfl⟩ |
          ⟨s, v, hs, rfl, hv⟩
        · have hline : ParamsText args (10 :: v) := hs.blank blank_line
          exact hcall rfl (.params hargs hline)
        · have hline : ParamsText args (10 :: s) := hs.blank blank_line
          exact hcall rfl (.value hargs hline hp)
        · cases hv with
          | here =>
            have hline : ParamsText (callArgs c) (10 :: s) := hs.blank blank_line
            rw [List.append_nil]
            exact hcall rfl (.params (r := []) (List.append_nil _).symm hline)
          | behind hv =>
            -- the call is whole
            have hwhole : ∀ {cs : List ToolCall} {k : Bytes}, CallsText cs k → CallsText (c :: cs)
                (invokeTag c.name ++ ([62] ++ 10 :: (s ++ ((Piece.tag .invokeEnd []).bytes ++ k)))) := by
              intro cs k hk
              have := CallsText.cons blank_nil (hs.blank blank_line) hk
              simp only [Piece.bytes, List.cons_append, List.nil_append, List.append_nil] at this ⊢
              exact this
            rcases hv.line with hblank | ⟨k, rfl, hk⟩
            · exact ⟨[c], none, .between (r := calls) rfl (hwhole (.nil hblank))⟩
            · obtain ⟨done, part, hat⟩ := ih hk
              cases hat with
              | between hcalls hdone =>
                exact ⟨c :: done, none, .between (by rw [hcalls]; rfl) (hwhole (hdone.blank blank_line))⟩
              | @call r x u v hcalls hdone hx =>
                refine ⟨c :: done, some x, ?_⟩
                have : CutAt (c :: calls) (c :: done) (some x) _ :=
                  .call (by rw [hcalls]; rfl) (hwhole (hdone.blank blank_line)) hx
                simp only [List.append_assoc, List.cons_append, List.nil_append] at this ⊢
                exact this

theorem PieceCut.append {ps qs : List Piece} {t : Bytes} (h : PieceCut (ps ++ qs) t) :
    PieceCut ps t ∨ ∃ v, t = piecesText ps ++ v ∧ PieceCut qs v := by
  induction ps generalizing t with
  | nil => exact .inr ⟨t, rfl, h⟩
  | cons x ps ih =>
    rw [List.cons_append] at h
    cases h with
    | here => exact .inl .here
    | inside hp => exact .inl (.inside hp)
    | behind h =>
      rcases ih h with h | ⟨v, rfl, hv⟩
      · exact .inl (.behind h)
      · refine .inr ⟨v, ?_, hv⟩
        rw [piecesText_cons, List.append_assoc]

theorem PieceCut.isPrefix {ps : List Piece} {t : Bytes} (h : PieceCut ps t) : t <+: piecesText ps := by
  induction h with
  | here => exact List.nil_prefix
  | inside hp =>
    rw [piecesText_cons]
    exact hp.trans (List.prefix_append _ _)
  | behind _ ih =>
    rw [piecesText_cons]
    exact (List.prefix_append_right_inj _).mpr ih

theorem cut_all : ∀ ps : List Piece, PieceCut ps (piecesText ps)
  | [] => .here
  | x :: ps => by
    rw [piecesText_cons]
    exact .behind (cut_all ps)

theorem CutAt.blank {calls done : List ToolCall} {part : Option CutCall} {w u : Bytes} (hw : Blank w)
    (h : CutAt calls done part u) : CutAt calls done part (w ++ u) := by
  cases h with
  | between hcalls hdone => exact .between hcalls (hdone.blank hw)
  | call hcalls hdone hx =>
    rw [← List.append_assoc]
    exact .call hcalls (hdone.blank hw) hx

/-- What comes before the first call: the blank lines and the opening tag. -/
def blockOpening : Bytes := utf8 "\n\n" ++ dsmlSyn.toolCallsStart

/-- A rendered block cut off somewhere behind its opening tag, but not inside a tag. -/
structure Truncated (calls : List ToolCall) (t : Bytes) : Prop where
  cut : PieceCut (blockPieces calls) t
  opened : blockOpening <+: t
  short : t ≠ appendDsmlToolCallsText [] calls

/-- Where the cut stands. -/
theorem cutAt {calls : List ToolCall} (hne : calls ≠ []) {t : Bytes} (h : Truncated calls t) :
    ∃ u done part, t = blockOpening ++ u ∧ CutAt calls done part u := by
  obtain ⟨hcut, hopened, hshort⟩ := h
  rw [← blockPieces_text calls hne] at hshort
  have hlen := hopened.length_le
  have hlines : ∀ {p : Bytes}, p <+: [10, 10] → p.length ≤ 2 := fun hp => hp.length_le
  have hlong : blockOpening.length = 2 + dsmlSyn.toolCallsStart.length := by decide
  have hpos : 0 < dsmlSyn.toolCallsStart.length := by decide
  unfold blockPieces at hcut hshort
  cases hcut with
  | here => simp only [List.length_nil] at hlen; omega
  | inside hp =>
    have := hlines hp
    omega
  | behind hcut =>
    cases hcut with
    | here =>
      simp only [Piece.bytes, List.append_nil, List.length_cons, List.length_nil] at hlen
      omega
    | @behind _ _ u hcut =>
      have htext : ∀ v, (Piece.text [10, 10]).bytes ++ ((Piece.tag .toolCallsStart []).bytes ++ v) = blockOpening ++ v := by
        intro v
        simp only [Piece.bytes, List.append_nil]
        rfl
      rw [htext] at hshort ⊢
      rcases hcut.line with hblank | ⟨u, rfl, hrest⟩
      · exact ⟨u, [], none, rfl, .between (r := calls) rfl (.nil hblank)⟩
      · have hcalls : PieceCut (calls.flatMap callPieces) u := by
          rcases hrest.append with h | ⟨v, rfl, hv⟩
          · exact h
          · cases hv with
            | here =>
              rw [List.append_nil]
              exact cut_all _
            | behind hv =>
              -- the block would be whole
              cases hv
              refine absurd ?_ hshort
              rw [piecesText_cons, piecesText_cons, htext, piecesText_cons, piecesText_append]
              simp [piecesText, Piece.bytes]
        obtain ⟨done, part, hat⟩ := calls_cut hcalls
        exact ⟨10 :: u, done, part, rfl, hat.blank blank_line⟩

end Ds4.Server
