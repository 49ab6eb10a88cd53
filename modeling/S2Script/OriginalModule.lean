import Mathlib

/-! The image of a loaded module, verified against its file: `parse` of the ELF headers, the check
of each load segment against the process's mappings, and `FromElf`. A read outside the file is a
fault of its own. -/
namespace S2Script.OriginalModule

/-- A `std::vector` of bytes; its size is a `size_t`. -/
structure File where
  bytes : List UInt8
  small : bytes.length < 2 ^ 64

inductive Fault where
  | outside
  | refused (reason : String)
deriving DecidableEq, Repr

abbrev Read := Except Fault

def refuse {α : Type} (reason : String) : Read α := .error (.refused reason)

theorem bind_ok {α β : Type} {x : Read α} {f : α → Read β} {b : β} (made : x >>= f = .ok b) :
    ∃ a, x = .ok a ∧ f a = .ok b := by
  cases x with
  | error fault => cases made
  | ok a => exact ⟨a,rfl,made⟩

def File.size (file : File) : UInt64 := UInt64.ofNat file.bytes.length

def maximum : UInt64 := 0xFFFFFFFFFFFFFFFF

def fits (start length limit : UInt64) : Bool := start ≤ limit && length ≤ limit - start

/-- `std::max`. -/
def later (a b : UInt64) : UInt64 := if a < b then b else a

/-- `std::min`. -/
def sooner (a b : UInt64) : UInt64 := if b < a then b else a

section Reading

variable (file : File)

def byteAt (pos : UInt64) : Read UInt8 :=
  match file.bytes[pos.toNat]? with
  | none => .error .outside
  | some b => .ok b

/-- The little-endian number of `count` bytes. -/
def le (pos : UInt64) : Nat → Read UInt64
  | 0 => .ok 0
  | i + 1 => do
    let value ← le pos i
    let b ← byteAt file (pos + UInt64.ofNat i)
    .ok (value ||| b.toUInt64 <<< UInt64.ofNat (8 * i))

/-- The bytes from a position on. -/
def span (pos length : UInt64) : Read (List UInt8) :=
  if pos.toNat + length.toNat ≤ file.bytes.length then
    .ok ((file.bytes.drop pos.toNat).take length.toNat)
  else .error .outside

end Reading

structure ProgramHeader where
  type : UInt64
  flags : UInt64
  offset : UInt64
  vaddr : UInt64
  filesz : UInt64
  memsz : UInt64
  align : UInt64
deriving DecidableEq, Repr

section Parsing

variable (file : File)

def readHeader (p : UInt64) : Read ProgramHeader := do
  let type ← le file p 4
  let flags ← le file (p + 4) 4
  let offset ← le file (p + 8) 8
  let vaddr ← le file (p + 16) 8
  let filesz ← le file (p + 32) 8
  let memsz ← le file (p + 40) 8
  let align ← le file (p + 48) 8
  .ok ⟨type,flags,offset,vaddr,filesz,memsz,align⟩

def checkHeader (h : ProgramHeader) : Read Unit :=
  if !fits h.offset h.filesz file.size then refuse "ELF segment file range invalid"
  else if h.type = 1 ∧ (h.filesz > h.memsz ∨ !fits h.vaddr h.memsz maximum ∨
      h.align > 1 ∧ (h.align &&& (h.align - 1) ≠ 0 ∨ h.vaddr % h.align ≠ h.offset % h.align)) then
    refuse "ELF load segment bounds/alignment invalid"
  else .ok ()

def hexDigit (n : Nat) : Char := Char.ofNat (if n < 10 then 48 + n else 87 + n)

def hexText (bytes : List UInt8) : String :=
  String.ofList (bytes.flatMap fun b => [hexDigit (b.toNat / 16),hexDigit (b.toNat % 16)])

def pad4 (n : UInt64) : UInt64 := (n + 3) &&& ~~~3

/-- A note of type 3 named `GNU` tells the build id. -/
def buildIdNote (pnote type namesz namepad descsz : UInt64) (buildId : String) : Read String :=
  if type = 3 ∧ namesz = 4 then do
    let name ← span file pnote 4
    if name = [71,78,85,0] then
      if descsz = 0 then refuse "ELF build-id note empty"
      else do
        let desc ← span file (pnote + namepad) descsz
        let id := hexText desc
        if buildId ≠ "" ∧ buildId ≠ id then refuse "ELF build-id notes conflict" else .ok id
    else .ok buildId
  else .ok buildId

/-- One note: where the next one starts and the build id so far. -/
def noteStep (limit pnote : UInt64) (buildId : String) : Read (UInt64 × String) :=
  if !fits pnote 12 limit then refuse "ELF note header truncated"
  else do
    let namesz ← le file pnote 4
    let descsz ← le file (pnote + 4) 4
    let type ← le file (pnote + 8) 4
    let namepad := pad4 namesz
    let descpad := pad4 descsz
    let pnote := pnote + 12
    if !fits pnote namepad limit || !fits (pnote + namepad) descpad limit then
      refuse "ELF note payload truncated"
    else do
      let buildId ← buildIdNote file pnote type namesz namepad descsz buildId
      .ok (pnote + (namepad + descpad),buildId)

end Parsing

section Arithmetic

theorem fits_iff {start length limit : UInt64} :
    fits start length limit = true ↔ start.toNat + length.toNat ≤ limit.toNat := by
  simp only [fits,Bool.and_eq_true,decide_eq_true_eq,UInt64.le_iff_toNat_le]
  constructor
  · rintro ⟨below,room⟩
    rw [UInt64.toNat_sub_of_le _ _ (UInt64.le_iff_toNat_le.mpr below)] at room
    omega
  · intro room
    have below : start.toNat ≤ limit.toNat := by omega
    rw [UInt64.toNat_sub_of_le _ _ (UInt64.le_iff_toNat_le.mpr below)]
    exact ⟨below,by omega⟩

/-- A sum that fits does not wrap. -/
theorem toNat_add_of_fits {start length limit : UInt64} (room : fits start length limit = true) :
    (start + length).toNat = start.toNat + length.toNat := by
  have bound := fits_iff.mp room
  have top := limit.toNat_lt
  rw [UInt64.toNat_add,Nat.mod_eq_of_lt (by omega)]

theorem toNat_add_of_lt {a b : UInt64} (small : a.toNat + b.toNat < 2 ^ 64) : (a + b).toNat = a.toNat + b.toNat := by
  rw [UInt64.toNat_add,Nat.mod_eq_of_lt small]

theorem later_toNat (a b : UInt64) : (later a b).toNat = max a.toNat b.toNat := by
  simp only [later,UInt64.lt_iff_toNat_lt]
  split <;> omega

theorem sooner_toNat (a b : UInt64) : (sooner a b).toNat = min a.toNat b.toNat := by
  simp only [sooner,UInt64.lt_iff_toNat_lt]
  split <;> omega

@[simp] theorem File.size_toNat (file : File) : file.size.toNat = file.bytes.length := by
  have small := file.small
  simp only [File.size,UInt64.toNat_ofNat']
  omega

end Arithmetic

/-- A note that was read ends behind its start and within the segment. -/
theorem noteStep_advances {file : File} {limit pnote next : UInt64} {buildId buildId' : String}
    (made : noteStep file limit pnote buildId = .ok (next,buildId')) :
    pnote.toNat < next.toNat ∧ next.toNat ≤ limit.toNat := by
  simp only [noteStep] at made
  split at made
  · cases made
  · rename_i header
    have room : fits pnote 12 limit = true := by simpa using header
    have after := toNat_add_of_fits room
    have bound := fits_iff.mp room
    obtain ⟨namesz,_,made⟩ := bind_ok made
    obtain ⟨descsz,_,made⟩ := bind_ok made
    obtain ⟨type,_,made⟩ := bind_ok made
    split at made
    · cases made
    · rename_i payload
      simp only [Bool.or_eq_true,Bool.not_eq_true',not_or,Bool.not_eq_false] at payload
      have name := fits_iff.mp payload.1
      have desc := fits_iff.mp payload.2
      rw [toNat_add_of_fits payload.1] at desc
      obtain ⟨_,_,made⟩ := bind_ok made
      cases made
      have top := limit.toNat_lt
      have pads : (pad4 namesz + pad4 descsz).toNat = (pad4 namesz).toNat + (pad4 descsz).toNat :=
        toNat_add_of_lt (by omega)
      rw [toNat_add_of_lt (by omega),pads,after]
      have twelve : (12 : UInt64).toNat = 12 := rfl
      omega

section Parsing

variable (file : File)

/-- The notes of a `PT_NOTE` segment. -/
def noteLoop (limit pnote : UInt64) (buildId : String) : Read String :=
  if pnote < limit then
    match _made : noteStep file limit pnote buildId with
    | .error fault => .error fault
    | .ok (next,buildId) => noteLoop limit next buildId
  else .ok buildId
termination_by limit.toNat - pnote.toNat
decreasing_by
  have advanced := noteStep_advances _made
  omega

/-- The entries of the dynamic segment, `left` of them before its end. -/
def dynamicLoop (pos : UInt64) : Nat → Read Unit
  | 0 => refuse "ELF dynamic segment missing terminator"
  | left + 1 => do
    let tag ← le file pos 8
    let value ← le file (pos + 8) 8
    if tag = 0 then .ok ()
    else if tag = 22 ∨ tag = 30 ∧ value &&& 4 ≠ 0 then
      refuse "unsupported text relocation in ELF dynamic segment"
    else dynamicLoop (pos + 16) left

def noteSegment (h : ProgramHeader) (buildId : String) : Read String :=
  if h.type = 4 then noteLoop file (h.offset + h.filesz) h.offset buildId else .ok buildId

def dynamicSegment (h : ProgramHeader) : Read Unit :=
  if h.type = 2 then
    if h.filesz % 16 ≠ 0 then refuse "ELF dynamic segment truncated"
    else dynamicLoop file h.offset (h.filesz.toNat / 16)
  else .ok ()

/-- What `parse` collects. -/
abbrev Parsed := List ProgramHeader × String

/-- One program header. -/
def headerStep (p : UInt64) (parsed : Parsed) : Read Parsed := do
  let h ← readHeader file p
  let _ ← checkHeader file h
  let buildId ← noteSegment file h parsed.2
  let _ ← dynamicSegment file h
  .ok (parsed.1 ++ [h],buildId)

/-- The headers from the `i`-th on. -/
def headersLoop (table i : UInt64) (parsed : Parsed) : Nat → Read Parsed
  | 0 => .ok parsed
  | left + 1 => do
    let parsed ← headerStep file (table + i * 56) parsed
    headersLoop table (i + 1) parsed left

def magic : List UInt8 := [0x7F,69,76,70,2,1,1]

def parse : Read Parsed :=
  if file.size < 64 then refuse "ELF header truncated"
  else do
    let ident ← span file 0 7
    let type ← le file 16 2
    let machine ← le file 18 2
    let version ← le file 20 4
    let headerSize ← le file 52 2
    if ident ≠ magic ∨ type ≠ 3 ∧ type ≠ 2 ∨ machine ≠ 62 ∨ version ≠ 1 ∨ headerSize ≠ 64 then
      refuse "unsupported ELF header (requires ELF64 little-endian x86-64)"
    else do
      let table ← le file 32 8
      let count ← le file 56 2
      let entrySize ← le file 54 2
      if count = 0 ∨ count = 0xffff ∨ entrySize ≠ 56 ∨ !fits table (count * 56) file.size then
        refuse "ELF program-header table invalid or truncated"
      else do
        let parsed ← headersLoop file table 0 ([],"") count.toNat
        if parsed.2 = "" then refuse "ELF build-id missing" else .ok parsed

end Parsing

structure Identity where
  device : UInt64
  inode : UInt64
  loadBias : UInt64
  buildId : String
deriving DecidableEq, Repr

structure Mapping where
  begin : UInt64
  limit : UInt64
  fileOffset : UInt64
  device : UInt64
  inode : UInt64
  readable : Bool
deriving DecidableEq, Repr

structure Segment where
  liveBegin : UInt64
  bytes : List UInt8
deriving DecidableEq, Repr

structure ReadableRange where
  begin : UInt64
  limit : UInt64
deriving DecidableEq, Repr

/-- `Image`. -/
structure Image where
  identity : Identity
  segments : List Segment
  readable : List ReadableRange
deriving DecidableEq, Repr

/-- `Image::mapped`. -/
def Image.mapped (image : Image) (live length : UInt64) : Bool :=
  if length = 0 ∨ !fits live length maximum then false
  else image.readable.any fun range => range.begin ≤ live && live < range.limit && length ≤ range.limit - live

/-- Whether a segment holds the range. -/
def Segment.holds (segment : Segment) (live length : UInt64) : Bool :=
  segment.liveBegin ≤ live &&
    fits (live - segment.liveBegin) length (UInt64.ofNat segment.bytes.length)

/-- `Image::executable`. -/
def Image.executable (image : Image) (live length : UInt64) : Bool :=
  if length = 0 ∨ !fits live length maximum then false
  else image.segments.any fun segment => segment.holds live length

/-- `Image::read`; `given` tells whether `out` is not null. -/
def Image.read (image : Image) (live : UInt64) (given : Bool) (length : UInt64) : Option (List UInt8) :=
  if !given || !image.executable live length then none
  else
    match image.segments.find? fun segment => segment.holds live length with
    | none => none
    | some segment => some ((segment.bytes.drop (live - segment.liveBegin).toNat).take length.toNat)

/-- One round of `mapped`: how far the one mapping at the cursor backs the segment. -/
def mappedStep (h : ProgramHeader) (id : Identity) (maps : List Mapping) (done : UInt64) : Read UInt64 :=
  let cursor := id.loadBias + h.vaddr + done
  match maps.filter fun m => m.begin ≤ cursor && cursor < m.limit with
  | [] => refuse "ELF segment mapping missing"
  | [m] =>
    if m.device ≠ id.device ∨ m.inode ≠ id.inode then refuse "loaded mapping identity mismatch"
    else
      let delta := cursor - m.begin
      if !fits m.fileOffset delta maximum || m.fileOffset + delta != h.offset + done then
        refuse "ELF segment mapping file offset mismatch"
      else
        let left := h.filesz - done
        let backed := m.limit - cursor
        .ok (done + sooner left backed)
  | _ :: _ :: _ => refuse "overlapping loaded mappings"

/-- What one mapping backs of a segment. -/
structure Backs (h : ProgramHeader) (id : Identity) (maps : List Mapping) (done next : UInt64) (m : Mapping) : Prop where
  mem : m ∈ maps
  starts : m.begin.toNat ≤ (id.loadBias + h.vaddr + done).toNat
  ends : (id.loadBias + h.vaddr + done).toNat < m.limit.toNat
  device : m.device = id.device
  inode : m.inode = id.inode
  noWrap : m.fileOffset.toNat + ((id.loadBias + h.vaddr + done).toNat - m.begin.toNat) < 2 ^ 64
  offset : (m.fileOffset + (id.loadBias + h.vaddr + done - m.begin)) = h.offset + done
  next_eq : next.toNat = done.toNat + min (h.filesz.toNat - done.toNat)
    (m.limit.toNat - (id.loadBias + h.vaddr + done).toNat)

theorem mappedStep_cases {h : ProgramHeader} {id : Identity} {maps : List Mapping} {done next : UInt64}
    (short : done < h.filesz) (made : mappedStep h id maps done = .ok next) :
    ∃ m, Backs h id maps done next m := by
  simp only [mappedStep] at made
  split at made
  · cases made
  · rename_i m found
    split at made
    · cases made
    · rename_i identity
      split at made
      · cases made
      · rename_i offset
        cases made
        have member : m ∈ maps ∧ _ := List.mem_filter.mp (by rw [found]; exact List.mem_singleton.mpr rfl)
        obtain ⟨mem,covers⟩ := member
        simp only [Bool.and_eq_true,decide_eq_true_eq,UInt64.le_iff_toNat_le,UInt64.lt_iff_toNat_lt] at covers
        simp only [not_or,not_not] at identity
        simp only [Bool.or_eq_true,Bool.not_eq_true',bne_iff_ne,ne_eq,not_or,Bool.not_eq_false,not_not] at offset
        have delta := UInt64.toNat_sub_of_le _ _ (UInt64.le_iff_toNat_le.mpr covers.1)
        have noWrap := fits_iff.mp offset.1
        rw [delta] at noWrap
        have left := UInt64.toNat_sub_of_le _ _ (UInt64.le_of_lt short)
        have backed := UInt64.toNat_sub_of_le _ _ (UInt64.le_of_lt (UInt64.lt_iff_toNat_lt.mpr covers.2))
        have top := h.filesz.toNat_lt
        have short' := UInt64.lt_iff_toNat_lt.mp short
        refine ⟨m,mem,covers.1,covers.2,identity.1,identity.2,?_,offset.2,?_⟩
        · have limit : maximum.toNat = 2 ^ 64 - 1 := rfl
          omega
        · have least := sooner_toNat (h.filesz - done) (m.limit - (id.loadBias + h.vaddr + done))
          rw [left,backed] at least
          rw [toNat_add_of_lt (by omega)]
          omega
  · cases made

/-- The loop of `mapped`. -/
def mappedLoop (h : ProgramHeader) (id : Identity) (maps : List Mapping) (done : UInt64) : Read Unit :=
  if _short : done < h.filesz then
    match _made : mappedStep h id maps done with
    | .error fault => .error fault
    | .ok next => mappedLoop h id maps next
  else .ok ()
termination_by h.filesz.toNat - done.toNat
decreasing_by
  obtain ⟨m,backs⟩ := mappedStep_cases _short _made
  have short := UInt64.lt_iff_toNat_lt.mp _short
  have ends := backs.ends
  have next := backs.next_eq
  omega

def mapped (h : ProgramHeader) (id : Identity) (maps : List Mapping) : Read Unit :=
  if !fits id.loadBias h.vaddr maximum || !fits (id.loadBias + h.vaddr) h.memsz maximum then
    refuse "ELF live segment arithmetic overflow"
  else mappedLoop h id maps 0

/-- The readable parts of a load segment: its own mappings, and anonymous ones behind its file bytes. -/
def readableParts (expected : Identity) (h : ProgramHeader) (begin limit : UInt64) (maps : List Mapping) :
    List ReadableRange :=
  maps.filterMap fun m =>
    let lo := later begin m.begin
    let hi := sooner limit m.limit
    if lo ≥ hi ∨ !m.readable then none
    else if ¬ (m.device = expected.device ∧ m.inode = expected.inode) ∧
        (m.device ≠ 0 ∨ m.inode ≠ 0 ∨ lo < begin + h.filesz) then none
    else some ⟨lo,hi⟩

/-- What the loop over the headers collects. -/
structure Loads where
  segments : List Segment
  ranges : List ReadableRange
  loadRanges : List ReadableRange

/-- The file bytes of an executable load segment. -/
def addSegment (file : File) (h : ProgramHeader) (begin : UInt64) (segments : List Segment) : Read (List Segment) :=
  if h.flags &&& 1 ≠ 0 ∧ h.filesz ≠ 0 then do
    let bytes ← span file h.offset h.filesz
    .ok (segments ++ [⟨begin,bytes⟩])
  else .ok segments

/-- One header of the loop in `FromElf`. -/
def loadStep (file : File) (expected : Identity) (maps : List Mapping) (loads : Loads) (h : ProgramHeader) :
    Read Loads :=
  if h.type ≠ 1 then .ok loads
  else do
    let _ ← mapped h expected maps
    let begin := expected.loadBias + h.vaddr
    let limit := begin + h.memsz
    if loads.loadRanges.any fun range => begin < range.limit && range.begin < limit then
      refuse "overlapping ELF load segments"
    else do
      let loadRanges := if h.memsz ≠ 0 then loads.loadRanges ++ [⟨begin,limit⟩] else loads.loadRanges
      let ranges := if h.flags &&& 4 ≠ 0 then loads.ranges ++ readableParts expected h begin limit maps
        else loads.ranges
      let segments ← addSegment file h begin loads.segments
      .ok ⟨segments,ranges,loadRanges⟩

def loadLoop (file : File) (expected : Identity) (maps : List Mapping) (loads : Loads) :
    List ProgramHeader → Read Loads
  | [] => .ok loads
  | h :: rest => do
    let loads ← loadStep file expected maps loads h
    loadLoop file expected maps loads rest

/-- One range of the merge. -/
def mergeStep (merged : List ReadableRange) (range : ReadableRange) : Read (List ReadableRange) :=
  match merged.getLast? with
  | none => .ok [range]
  | some last =>
    if range.begin < last.limit then refuse "overlapping readable mappings"
    else if range.begin = last.limit then .ok (merged.dropLast ++ [{ last with limit := range.limit }])
    else .ok (merged ++ [range])

def mergeLoop (merged : List ReadableRange) : List ReadableRange → Read (List ReadableRange)
  | [] => .ok merged
  | range :: rest => do
    let merged ← mergeStep merged range
    mergeLoop merged rest

/-- `FromElf`: the image, and the cache of the images still alive. -/
def fromElf (cache : List Image) (file : File) (expected observed : Identity) (maps : List Mapping) :
    Read (Image × List Image) :=
  if expected.device ≠ observed.device ∨ expected.inode ≠ observed.inode ∨
      expected.loadBias ≠ observed.loadBias ∨ expected.buildId ≠ observed.buildId then
    refuse "module identity mismatch"
  else do
    let (headers,buildId) ← parse file
    if expected.buildId = "" ∨ buildId ≠ expected.buildId then refuse "module build-id identity mismatch"
    else if maps.any fun m => m.begin ≥ m.limit then refuse "invalid loaded mapping bounds"
    else do
      let loads ← loadLoop file expected maps ⟨[],[],[]⟩ headers
      if loads.segments = [] then refuse "ELF has no file-backed executable segments"
      else do
        let segments := loads.segments.mergeSort fun s t => s.liveBegin ≤ t.liveBegin
        let merged ← mergeLoop [] (loads.ranges.mergeSort fun r t => r.begin ≤ t.begin)
        let image : Image := ⟨expected,segments,merged⟩
        match cache.find? fun old => old = image with
        | some old => .ok (old,cache)
        | none => .ok (image,cache ++ [image])

end S2Script.OriginalModule
