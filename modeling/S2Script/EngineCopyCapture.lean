import S2Script.EngineCopyText

/-! Capture of native strings and vectors: chunks that end at page boundaries, up to the first NUL. -/
namespace S2Script.EngineCopyArena

/-- The values of a 64-bit `uintptr_t`. -/
def addresses : Nat := 2 ^ 64

def Range (address length : Nat) : Bool := address ≠ 0 && length ≠ 0 && length - 1 ≤ addresses - 1 - address

/-- A reader over the memory of the process. The calls made before, the address and the size asked for
decide how many bytes it gives. -/
structure Reader where
  available : Bool
  present : Bool
  pageSize : Nat
  memory : Nat → UInt8
  delivers : Nat → Nat → Nat → Nat

namespace Reader

variable (reader : Reader)

def bytes (address length : Nat) : List UInt8 := (List.range length).map fun i => reader.memory (address + i)

/-- What is left of the page. -/
def room (address : Nat) : Nat := reader.pageSize - address % reader.pageSize

def usable (address length : Nat) : Prop := reader.available ∧ reader.present ∧ reader.pageSize ≠ 0 ∧ Range address length

instance (address length : Nat) : Decidable (reader.usable address length) := by
  unfold usable
  infer_instance

end Reader

/-- An address and a size asked for. -/
structure Request where
  address : Nat
  count : Nat
  deriving DecidableEq

def unsupported (reason : String) : String := "FunctionCopyLifetimeUnsupported: " ++ reason

def tooLarge (reason : String) : String := "FunctionCopyTooLarge: " ++ reason

/-- A `SnapshotBlock`: `data` is what is written of its storage. -/
structure Block where
  kind : Kind
  refs : Nat
  captureReady : Bool
  length : Nat
  data : List UInt8

def Block.content (block : Block) : Value := ⟨block.kind,block.data.take block.length⟩

section Capture

variable (reader : Reader)

def ScratchSize : Nat := 4096

def Kind.limit : Kind → Nat
  | .string => MaxString + 1
  | .vector => 12

/-- The chunk read next. -/
def Reader.count (address remaining : Nat) : Nat := min remaining (min ScratchSize (reader.room address))

theorem Reader.room_pos (pages : reader.pageSize ≠ 0) (address : Nat) : 0 < reader.room address :=
  Nat.sub_pos_of_lt (Nat.mod_lt _ (Nat.pos_of_ne_zero pages))

theorem Reader.count_pos (pages : reader.pageSize ≠ 0) (address remaining : Nat) (some : 0 < remaining) :
    0 < reader.count address remaining := by
  have room := reader.room_pos pages address
  simp only [Reader.count,ScratchSize]
  omega

def request (request : Request) (result : List Request × Except String Block) : List Request × Except String Block :=
  (request :: result.1,result.2)

/-- The loop of `CapturePrepared` from an offset on, with the bytes copied so far. -/
def captureLoop (pages : reader.pageSize ≠ 0) (block : Block) (source calls offset : Nat) : List Request × Except String Block :=
  if offset < block.kind.limit then
    let address := source + offset
    let count := reader.count address (block.kind.limit - offset)
    let received := reader.delivers calls address count
    request ⟨address,count⟩ <|
      if received = 0 ∨ received > count then ([],.error (unsupported "unreadable copied source"))
      else
        let scratch := reader.bytes address received
        match if block.kind = .string then scratch.findIdx? (· = 0) else none with
        | some n =>
          let captured := { block with data := block.data ++ scratch.take (n + 1),length := offset + n }
          if captured.content.Valid then ([],.ok captured) else ([],.error (unsupported "invalid UTF-8 source"))
        | none =>
          if received ≠ count then ([],.error (unsupported "short copied source"))
          else captureLoop pages { block with data := block.data ++ scratch } source (calls + 1) (offset + count)
  else if block.kind = .string then ([],.error (tooLarge "no NUL within 65536 bytes"))
  else
    let captured := { block with length := 12 }
    if captured.content.Valid then ([],.ok captured) else ([],.error (unsupported "nonfinite vector source"))
termination_by block.kind.limit - offset
decreasing_by
  have progress := reader.count_pos pages (source + offset) (block.kind.limit - offset) (by omega)
  omega

/-- The prepared storage is filled from the source. -/
def capturePrepared (prepared : Option Block) (source calls : Nat) : List Request × Except String Block :=
  match prepared with
  | none => ([],.error (unsupported "capture storage unavailable or shared"))
  | some block =>
    if !block.captureReady ∨ block.refs ≠ 1 then ([],.error (unsupported "capture storage unavailable or shared"))
    else if usable : reader.usable source block.kind.limit then
      captureLoop reader usable.2.2.1 { block with captureReady := false,data := [] } source calls 0
    else ([],.error (unsupported "unavailable reader or invalid address"))

/-- Fresh storage; the host's admission and the allocation are answers from outside. -/
def prepareCapture (hostOwned : Bool) (kind : Kind) (allocate : Except String Unit) : Except String Block :=
  if !hostOwned then .error (unsupported "capture requires Engine operation and copied kind")
  else allocate.map fun _ => ⟨kind,1,true,0,[]⟩

def Word : Nat := 8

/-- The loop of `CaptureIndirect` over the pointer word. -/
def readWord (pages : reader.pageSize ≠ 0) (object calls offset : Nat) (word : List UInt8) : List Request × Except String (List UInt8) :=
  if offset < Word then
    let address := object + offset
    let count := min (Word - offset) (reader.room address)
    let received := reader.delivers calls address count
    if received ≠ count then ([⟨address,count⟩],.error (unsupported "unreadable indirect object"))
    else
      let (requests,result) := readWord pages object (calls + 1) (offset + count) (word ++ reader.bytes address received)
      (⟨address,count⟩ :: requests,result)
  else ([],.ok word)
termination_by Word - offset
decreasing_by
  have room := reader.room_pos pages (object + offset)
  omega

/-- A little-endian word. -/
def littleEndian (word : List UInt8) : Nat := word.foldr (fun byte value => byte.toNat + 256 * value) 0

def captureIndirect (hostOwned : Bool) (allocate : Except String Unit) (object calls : Nat) : List Request × Except String Block :=
  match prepareCapture hostOwned .string allocate with
  | .error failure => ([],.error failure)
  | .ok prepared =>
    if usable : reader.usable object Word then
      match readWord reader usable.2.2.1 object calls 0 [] with
      | (requests,.error failure) => (requests,.error failure)
      | (requests,.ok word) =>
        let text := littleEndian word
        if text ≠ 0 then
          let (more,result) := capturePrepared reader (some prepared) text (calls + requests.length)
          (requests ++ more,result)
        else (requests,.ok { prepared with captureReady := false,length := 0,data := [0] })
    else ([],.error (unsupported "unavailable reader or invalid indirect object"))

end Capture

end S2Script.EngineCopyArena
