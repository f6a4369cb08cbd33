import Ds4.ByteStore
import Ds4.Triple
import Ds4.Store.KvFile

/- The directory of a GGUF model file: how ds4.c walks it through a cursor.

   Correspondence (C ↔ Lean):
     `ds4_cursor`, `cursor_has`, `cursor_read`, `cursor_skip` ↔ `Cursor`, `cursorHas`, `cursorRead`, `cursorSkip`
     `cursor_u32`, `cursor_u64`, `cursor_string`              ↔ `cursorU32`, `cursorU64`, `cursorString`
     `scalar_value_size`, `skip_value`                        ↔ `scalarValueSize`, `skipValue`
     `gguf_types`, `tensor_type`, `tensor_nbytes`             ↔ `ggufTypes`, `tensorType`, `tensorNbytes`
     `parse_metadata`, `parse_tensors`, `model_open`          ↔ `parseMetadata`, `parseTensors`, `modelOpen`
   The cursor keeps a list of all reads of the mapping, each by its place and
   length, with those a name comparison or a warning makes; they stay in it when
   the program dies. 64-bit sums and products wrap. `alloc` says which sizes of
   a table `calloc` has memory for. -/
namespace Ds4.Engine
open Ds4 Bytes Ds4.Store

/-- The bytes `fstat` and `mmap` give: a file's size is a signed 64-bit number. -/
structure ModelFile where
  bytes : Bytes
  size_lt : bytes.length < 2 ^ 63

def ModelFile.size (f : ModelFile) : Nat := f.bytes.length

structure Cursor where
  pos : Nat
  reads : List (Nat × Nat)

abbrev Parse := EStateM String Cursor

/-- `ds4_str`: a place in the mapping. -/
structure Str where
  pos : Nat
  len : Nat

/-! ## The cursor -/

section
variable (f : ModelFile)

/-- `cursor_error` and the end of the program. -/
def cursorError {α : Type} (msg : String) : Parse α := fun c => .error (msg ++ " at byte " ++ toString c.pos) c

def cursorHas (n : Nat) : Parse Unit := do
  let c ← get
  if n > f.size ∨ c.pos > f.size - n then cursorError "truncated GGUF file"

def note (pos n : Nat) : Parse Unit := modify fun c => { c with reads := (pos, n) :: c.reads }

def advance (n : Nat) : Parse Unit := modify fun c => { c with pos := c.pos + n }

def cursorRead (n : Nat) : Parse Bytes := do
  cursorHas f n
  let c ← get
  note c.pos n
  advance n
  return span f.bytes c.pos n

def cursorSkip (n : Nat) : Parse Unit := do
  cursorHas f n
  advance n

def cursorU32 : Parse Nat := do return leGet (← cursorRead f 4)

def cursorU64 : Parse Nat := do return leGet (← cursorRead f 8)

def cursorString : Parse Str := do
  let len ← cursorU64 f
  cursorHas f len
  let c ← get
  advance len
  return ⟨c.pos, len⟩

/-- `ds4_streq`: the bytes are compared where the lengths agree. -/
def streq (s : Str) (z : Bytes) : Parse Bool :=
  if s.len = z.length then do
    note s.pos z.length
    return span f.bytes s.pos z.length == z
  else return false

/-- A `uint32_t` read through a cursor of its own. -/
def peekU32 : Parse (Option Nat) := fun c =>
  match cursorU32 f c with
  | .ok v c' => .ok (some v) { c' with pos := c.pos }
  | .error _ c' => .ok none c'

/-! ## Metadata -/

def scalarValueSize (type : Nat) : Nat :=
  match type with
  | 0 | 1 | 7 => 1
  | 2 | 3 => 2
  | 4 | 5 | 6 => 4
  | 10 | 11 | 12 => 8
  | _ => 0

def valueString : Nat := 8

def valueArray : Nat := 9

def u64Max : Nat := 2 ^ 64 - 1

/-- `n` times the same. -/
def repeatParse (n : Nat) (p : Parse Unit) : Parse Unit :=
  match n with
  | 0 => return
  | n + 1 => do
    p
    repeatParse n p

/-- `left` levels may still be opened: `skip_value` counts `depth` up to 8. -/
def skipValue (left type : Nat) : Parse Unit :=
  match left with
  | 0 => cursorError "metadata array nesting is too deep"
  | left + 1 =>
    if scalarValueSize type ≠ 0 then cursorSkip f (scalarValueSize type)
    else if type = valueString then do
      let _ ← cursorString f
    else if type = valueArray then do
      let itemType ← cursorU32 f
      let len ← cursorU64 f
      if scalarValueSize itemType ≠ 0 then
        if len > u64Max / scalarValueSize itemType then cursorError "metadata array is too large"
        else cursorSkip f (len * scalarValueSize itemType)
      else repeatParse len (skipValue left itemType)
    else cursorError "unknown GGUF metadata type"

structure Kv where
  key : Str
  type : Nat
  valuePos : Nat

/-- `n` entries, and the alignment they ask for. -/
def parseMetadata (n alignment : Nat) : Parse (List Kv × Nat) :=
  match n with
  | 0 => return ([], alignment)
  | n + 1 => do
    let key ← cursorString f
    let type ← cursorU32 f
    let c ← get
    let named ← streq f key (utf8 "general.alignment")
    let asked ← if named = true ∧ type = 4 then peekU32 f else pure none
    skipValue f 9 type
    let (kvs, alignment) ← parseMetadata n (match asked with
      | some v => if v ≠ 0 then v else alignment
      | none => alignment)
    return (⟨key, type, c.pos⟩ :: kvs, alignment)

/-! ## Tensors -/

structure GgufTypeInfo where
  blockElems : Nat
  blockBytes : Nat
  deriving DecidableEq, Repr

/-- The entries that have a name. -/
def ggufTypes : List (Option GgufTypeInfo) :=
  [some ⟨1, 4⟩, some ⟨1, 2⟩, some ⟨32, 18⟩, some ⟨32, 20⟩, none, none, some ⟨32, 22⟩, some ⟨32, 24⟩, some ⟨32, 34⟩,
    some ⟨32, 40⟩, some ⟨256, 84⟩, some ⟨256, 110⟩, some ⟨256, 144⟩, some ⟨256, 176⟩, some ⟨256, 210⟩,
    some ⟨256, 292⟩, some ⟨256, 66⟩, some ⟨256, 74⟩, some ⟨256, 98⟩, some ⟨256, 110⟩, some ⟨256, 50⟩,
    some ⟨256, 110⟩, some ⟨256, 82⟩, some ⟨256, 136⟩, some ⟨1, 1⟩, some ⟨1, 2⟩, some ⟨1, 4⟩, some ⟨1, 8⟩,
    some ⟨1, 8⟩, some ⟨256, 56⟩, some ⟨1, 2⟩]

def tensorType (type : Nat) : Option GgufTypeInfo := (ggufTypes[type]?).join

def tensorNbytes (type elements : Nat) : Option Nat := do
  let info ← tensorType type
  if info.blockElems = 0 then none
  let blocks := (elements + info.blockElems - 1) % 2 ^ 64 / info.blockElems
  if blocks > u64Max / info.blockBytes then none
  return blocks * info.blockBytes

structure Tensor where
  name : Str
  dims : List Nat
  type : Nat
  relOffset : Nat
  absOffset : Nat
  elements : Nat
  bytes : Nat

def maxDims : Nat := 8

def readDims (n elements : Nat) : Parse (List Nat × Nat) :=
  match n with
  | 0 => return ([], elements)
  | n + 1 => do
    let d ← cursorU64 f
    if d ≠ 0 ∧ elements > u64Max / d then throw "tensor element count overflow"
    let (ds, elements) ← readDims n (elements * d % 2 ^ 64)
    return (d :: ds, elements)

/-- The warning about a type without a size. Its `%.*s` reads the name up to
    `(int)len` bytes, up to its NUL where that is negative. -/
def warnUnsupported (name : Str) : Parse Unit :=
  let len := cInt name.len
  let text := (cstr (f.bytes.drop name.pos)).length + 1
  note name.pos (if len < 0 then text else min len.toNat text)

def readTensor : Parse Tensor := do
  let name ← cursorString f
  let ndim ← cursorU32 f
  if ndim = 0 ∨ ndim > maxDims then throw "tensor has an unsupported number of dimensions"
  let (dims, elements) ← readDims f ndim 1
  let type ← cursorU32 f
  let relOffset ← cursorU64 f
  match tensorNbytes type elements with
  | some bytes => return { name, dims, type, relOffset, absOffset := 0, elements, bytes }
  | none =>
    warnUnsupported f name
    return { name, dims, type, relOffset, absOffset := 0, elements, bytes := 0 }

def readTensors (n : Nat) : Parse (List Tensor) :=
  match n with
  | 0 => return []
  | n + 1 => do
    let t ← readTensor f
    let ts ← readTensors n
    return t :: ts

def alignUp (value alignment : Nat) : Nat :=
  let rem := value % alignment
  if rem = 0 then value else (value + alignment - rem) % 2 ^ 64

/-- The second loop: offsets into the mapping, and their check. -/
def placeTensor (dataPos : Nat) (t : Tensor) : Parse Tensor := do
  if t.relOffset > u64Max - dataPos then throw "tensor offset overflow"
  let absOffset := dataPos + t.relOffset
  if t.bytes ≠ 0 ∧ (absOffset > f.size ∨ t.bytes > f.size - absOffset) then throw "tensor points outside GGUF file"
  return { t with absOffset := absOffset }

def placeTensors (dataPos : Nat) : List Tensor → Parse (List Tensor)
  | [] => return []
  | t :: ts => do
    let t ← placeTensor f dataPos t
    let ts ← placeTensors dataPos ts
    return t :: ts

structure Model where
  kv : List Kv
  tensors : List Tensor
  alignment : Nat
  tensorDataPos : Nat
  maxTensorBytes : Nat

def parseTensors (alloc : Nat → Bool) (n alignment : Nat) : Parse (List Tensor × Nat) := do
  if alloc n = false then throw "out of memory while allocating tensor table"
  let ts ← readTensors f n
  let c ← get
  let dataPos := alignUp c.pos alignment
  let ts ← placeTensors f dataPos ts
  return (ts, dataPos)

def ggufMagic : Nat := 0x46554747

def modelOpen (alloc : Nat → Bool) : Parse Model := do
  if f.size < 32 then throw "model file is too small to be GGUF"
  let magic ← cursorU32 f
  if magic ≠ ggufMagic then throw "model is not a GGUF file"
  let version ← cursorU32 f
  let nTensors ← cursorU64 f
  let nKv ← cursorU64 f
  if version ≠ 3 then throw "only GGUF v3 is supported"
  if alloc nKv = false then throw "out of memory while allocating metadata table"
  let (kv, alignment) ← parseMetadata f nKv 32
  let (tensors, tensorDataPos) ← parseTensors f alloc nTensors alignment
  return { kv, tensors, alignment, tensorDataPos,
           maxTensorBytes := tensors.foldl (fun b t => max b t.bytes) 0 }

end

end Ds4.Engine
