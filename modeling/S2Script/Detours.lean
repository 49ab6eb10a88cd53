import S2Script.CodeMemory

/-! Inline detours: a stolen prologue is relocated into a trampoline page, and the target is
overwritten with a jump. The length disassembler is a parameter; the operating system's
answers are data of each call. -/
namespace S2Script.Detours

open CodeMemory

def kMaxSteal : Nat := 32

def kJmpRel32 : Nat := 5

def kJmpAbs : Nat := 14

def kMaxInsnLen : Nat := 15

/-- What `hde64_disasm` reports of one instruction. -/
structure Hde where
  len : Nat
  error : Bool
  modrm : Bool
  imm8 : Bool
  imm16 : Bool
  imm32 : Bool
  imm64 : Bool
  disp32 : Bool
  relative : Bool
  modrmMod : Nat
  modrmRm : Nat
  opcode : Nat
  opcode2 : Nat
  dispValue : BitVec 32
  immValue : BitVec 32
deriving DecidableEq, Repr

/-- The instruction at the start of some code. -/
abbrev Decoder := Code → Hde

def immBytes (hs : Hde) : Nat :=
  (if hs.imm8 then 1 else 0) + (if hs.imm16 then 2 else 0) + (if hs.imm32 then 4 else 0)
    + (if hs.imm64 then 8 else 0)

/-- What the relocation asks and reads, in order. -/
inductive Event where
  | probed (a : Address) (answer : Bool)
  | decoded (a : Address)
deriving DecidableEq, Repr

/-- `ProbeReadable`, and the questions it asked. -/
def probeReadable (isExec : Option (Address → Bool)) (a : Address) : Bool × List Event :=
  match isExec with
  | none => (true,[])
  | some exec =>
    let last := a + BitVec.ofNat 64 (kMaxInsnLen - 1)
    if exec a then (exec last,[.probed a true,.probed last (exec last)]) else (false,[.probed a false])

def ripRelative (hs : Hde) : Bool := hs.modrm && hs.disp32 && hs.modrmMod == 0 && hs.modrmRm == 5

def rel32 (hs : Hde) : Bool :=
  hs.imm32 && (hs.opcode == 0xE8 || hs.opcode == 0xE9
    || (hs.opcode == 0x0F && 0x80 ≤ hs.opcode2 && hs.opcode2 ≤ 0x8F))

/-- The four bytes that make an operand relative to `next` the address it was relative to `old`,
or `none` when they would not reach. -/
def rebase (old next : Address) (value : BitVec 32) : Option (List UInt8) :=
  let moved := old + value.signExtend 64 - next
  if fits32 moved then some (bytes32 (moved.setWidth 32)) else none

/-- `(1)`: a RIP-relative memory operand of the copied instruction. -/
def relocateOperand (hs : Hde) (insnAddr dstAddr : Address) (dst : List UInt8) : Except String (List UInt8) :=
  if ripRelative hs then
    if hs.len < immBytes hs + 4 then
      .error "rip-relative displacement does not fit the decoded instruction"
    else
      match rebase (insnAddr + BitVec.ofNat 64 hs.len) (dstAddr + BitVec.ofNat 64 hs.len) hs.dispValue with
      | none => .error "rip-relative target out of reach from the trampoline"
      | some field => .ok (splice dst (hs.len - immBytes hs - 4) field)
  else .ok dst

/-- `(2)`: a relative branch immediate of the copied instruction. -/
def relocateBranch (hs : Hde) (insnAddr dstAddr : Address) (dst : List UInt8) : Except String (List UInt8) :=
  if hs.relative then
    if !rel32 hs then .error "short branch in stolen prologue (not widened)"
    else
      match rebase (insnAddr + BitVec.ofNat 64 hs.len) (dstAddr + BitVec.ofNat 64 hs.len) hs.immValue with
      | none => .error "branch target out of reach from the trampoline"
      | some field => .ok (splice dst (hs.len - 4) field)
  else .ok dst

def relocate (hs : Hde) (insnAddr dstAddr : Address) (src : List UInt8) : Except String (List UInt8) :=
  match relocateOperand hs insnAddr dstAddr src with
  | .error reason => .error reason
  | .ok dst => relocateBranch hs insnAddr dstAddr dst

/-- `BuildResult` with the bytes written to `out`. -/
structure Built where
  ok : Bool
  reason : Option String
  steal : Nat
  emitted : Nat
  out : List UInt8
  events : List Event
deriving DecidableEq, Repr

def Built.refused (reason : String) (out : List UInt8) (events : List Event) : Built :=
  ⟨false,some reason,0,0,out,events⟩

section Building

variable (decode : Decoder) (isExec : Option (Address → Bool)) (code : Code) (codeAddr outAddr : Address)

/-- One pass of the loop at `steal`: a refusal with what it asked and read, or the instruction's
length and its relocated bytes. -/
def buildStep (steal emitted : Nat) : (String ⊕ Nat × List UInt8) × List Event :=
  let insnAddr := codeAddr + BitVec.ofNat 64 steal
  match probeReadable isExec insnAddr with
  | (false,asked) => (.inl "prologue leaves the target's executable range (stale gamedata?)",asked)
  | (true,asked) =>
    let hs := decode (advance code steal)
    let events := asked ++ [.decoded insnAddr]
    if hs.len = 0 ∨ hs.error then (.inl "undecodable instruction in prologue",events)
    else if kMaxSteal < steal + hs.len then (.inl "prologue exceeds the maximum stealable length",events)
    else
      match relocate hs insnAddr (outAddr + BitVec.ofNat 64 emitted) (slice (advance code steal) hs.len) with
      | .error reason => (.inl reason,events)
      | .ok bytes => (.inr (hs.len,bytes),events)

/-- What a pass that did not refuse found and did. -/
structure Stepped (steal emitted len : Nat) (bytes : List UInt8) (events : List Event) : Prop where
  len_eq : len = (decode (advance code steal)).len
  positive : 0 < len
  decoded : (decode (advance code steal)).error = false
  room : steal + len ≤ kMaxSteal
  relocated : relocate (decode (advance code steal)) (codeAddr + BitVec.ofNat 64 steal)
    (outAddr + BitVec.ofNat 64 emitted) (slice (advance code steal) len) = .ok bytes
  probed : ∃ asked, probeReadable isExec (codeAddr + BitVec.ofNat 64 steal) = (true,asked) ∧
    events = asked ++ [.decoded (codeAddr + BitVec.ofNat 64 steal)]

variable {decode isExec code codeAddr outAddr} in
theorem buildStep_cases {steal emitted len : Nat} {bytes : List UInt8} {events : List Event}
    (made : buildStep decode isExec code codeAddr outAddr steal emitted = (.inr (len,bytes),events)) :
    Stepped decode isExec code codeAddr outAddr steal emitted len bytes events := by
  simp only [buildStep] at made
  split at made
  · cases made
  · rename_i asked probed
    split at made
    · cases made
    · rename_i decoded
      split at made
      · cases made
      · rename_i room
        split at made
        · cases made
        · rename_i relocated
          cases made
          exact {
            len_eq := rfl
            positive := by omega
            decoded := by simpa using fun error => decoded (.inr error)
            room := by omega
            relocated := relocated
            probed := ⟨asked,probed,rfl⟩ }

/-- The loop of `BuildTrampolineBody`. -/
def buildLoop (minBytes : Int) (steal emitted : Nat) (out : List UInt8) (events : List Event) : Built :=
  if (steal : Int) < minBytes then
    match made : buildStep decode isExec code codeAddr outAddr steal emitted with
    | (.inl reason,more) => .refused reason out (events ++ more)
    | (.inr (len,bytes),more) =>
      buildLoop minBytes (steal + len) (emitted + len) (out ++ bytes) (events ++ more)
  else ⟨true,none,steal,emitted,out,events⟩
termination_by kMaxSteal - steal
decreasing_by
  have stepped := buildStep_cases made
  have positive := stepped.positive
  have room := stepped.room
  omega

/-- `BuildTrampolineBody`. -/
def buildTrampolineBody (minBytes : Int) : Built :=
  buildLoop decode isExec code codeAddr outAddr minBytes 0 0 [] []

end Building

/-- `WriteAbsJmp`. -/
def absJmp (dest : Address) : List UInt8 := [0xFF,0x25] ++ bytes32 0 ++ bytes64 dest

/-- `WriteRelJmp`; `none` where the destination is out of reach and nothing is written. -/
def relJmp (atAddr dest : Address) : Option (List UInt8) :=
  let rel := dest - (atAddr + BitVec.ofNat 64 kJmpRel32)
  if fits32 rel then some (0xE9 :: bytes32 (rel.setWidth 32)) else none

structure Patch where
  target : Address
  orig : List UInt8
  trampoline : Address
  trampSize : Nat
deriving DecidableEq, Repr

/-- The process: its memory and the variables of `detour.cpp`. -/
structure Process where
  memory : Memory
  patches : List Patch
  noFixedNoReplace : Bool
  forceFarTier : Bool

/-- What `mmap` answers a fixed request. -/
inductive Mapping where
  | mapped (p : Address)
  | invalid
  | refused
deriving DecidableEq, Repr

/-- The operating system's answers to one `Install`. -/
structure Os where
  pageSize : Nat
  mapFixed : Address → Mapping
  mapHint : Address → Option Address
  mapAnywhere : Option Address
  protect : Bool

/-- `TryMapAt`, with the latched `g_noFixedNoReplace`. -/
def tryMapAt (os : Os) (latched : Bool) (a : Address) : Option Address × Bool :=
  if latched then (os.mapHint a,true)
  else
    match os.mapFixed a with
    | .mapped p => if p = a then (some p,false) else (none,true)
    | .invalid => (none,true)
    | .refused => (none,false)

def kReach : Int := 0x7FFF0000

def kStep : Nat := 2 ^ 20

/-- The candidates of `AllocNear` at the distance `d` from the target's page and farther, below
before above. -/
def candidatesFrom (base : Address) : Nat → Nat → List Address
  | 0,_ => []
  | left + 1,d =>
    ((if base.toNat < d then [] else [base - BitVec.ofNat 64 d]) ++ [base + BitVec.ofNat 64 d]).filter
      (fun cand => 0x10000 ≤ cand.toNat) ++ candidatesFrom base left (d + kStep)

/-- The distances below `kReach`. -/
def candidates (base : Address) : List Address := candidatesFrom base 2047 kStep

def probeCandidates (os : Os) (target : Address) (latched : Bool) : List Address → Option Address × Bool
  | [] => (none,latched)
  | cand :: rest =>
    match tryMapAt os latched cand with
    | (none,latched) => probeCandidates os target latched rest
    | (some p,latched) =>
      let delta := (p - target).toInt
      if -kReach < delta ∧ delta < kReach then (some p,latched) else (none,latched)

/-- `AllocNear`. -/
def allocNear (os : Os) (p : Process) (target : Address) : Option Address × Bool :=
  if p.forceFarTier then (none,p.noFixedNoReplace)
  else
    let base := BitVec.ofNat 64 (target.toNat / os.pageSize * os.pageSize)
    probeCandidates os target p.noFixedNoReplace (candidates base)

/-- `InstallResult`, with what `*origTrampoline` receives. -/
structure InstallResult where
  ok : Bool
  reason : Option String
  stolen : Nat
  usedNearJump : Bool
  origTrampoline : Option Address
deriving DecidableEq, Repr

/-- `Fail`. -/
def InstallResult.failed (reason : Option String) : InstallResult := ⟨false,reason,0,false,none⟩

/-- The trampoline page: the relocated prologue, the jump back, the island of the near tier. -/
def layOut (memory : Memory) (page target handler : Address) (built : Built) : Memory :=
  let memory := write memory page built.out
  let memory := write memory (page + BitVec.ofNat 64 built.emitted)
    (absJmp (target + BitVec.ofNat 64 built.steal))
  write memory (page + BitVec.ofNat 64 (built.emitted + kJmpAbs)) (absJmp handler)

/-- The jump written over the target, or `none` where the near one does not reach its island. -/
def patchJump (target handler page : Address) (near : Bool) (emitted : Nat) : Option (List UInt8) :=
  if near then relJmp target (page + BitVec.ofNat 64 (emitted + kJmpAbs)) else some (absJmp handler)

/-- The second half of `Install`: from a built body on. -/
def patch (os : Os) (p : Process) (target handler page : Address) (near : Bool) (built : Built) :
    Process × InstallResult :=
  let memory := layOut p.memory page target handler built
  if !os.protect then
    ({ p with memory := memory },.failed (some "could not make the patch site writable"))
  else
    match patchJump target handler page near built.emitted with
    | none => ({ p with memory := memory },
        .failed (some "near trampoline is out of rel32 range (allocator disagreement)"))
    | some jump =>
      let orig := slice (view memory target) built.steal
      let memory := write memory target (jump ++ List.replicate (built.steal - jump.length) 0x90)
      ({ p with
          memory := memory
          patches := p.patches ++ [⟨target,orig,page,os.pageSize⟩] },
        ⟨true,none,built.steal,near,some page⟩)

/-- `Install`; `given` tells whether `origTrampoline` is not null. -/
def install (decode : Decoder) (os : Os) (p : Process) (target handler : Address) (given : Bool)
    (isExec : Option (Address → Bool)) : Process × InstallResult :=
  if target = 0 ∨ handler = 0 ∨ !given then (p,.failed (some "null target, handler, or trampoline out"))
  else if os.pageSize < kMaxSteal + kJmpAbs + kJmpAbs then
    (p,.failed (some "trampoline layout does not fit one page"))
  else
    let body := fun (page : Address) (minBytes : Nat) =>
      buildTrampolineBody decode isExec (view p.memory target) target page minBytes
    match allocNear os p target with
    | (some page,latched) =>
      let p := { p with noFixedNoReplace := latched }
      let built := body page kJmpRel32
      if built.ok then patch os p target handler page true built else (p,.failed built.reason)
    | (none,latched) =>
      let p := { p with noFixedNoReplace := latched }
      match os.mapAnywhere with
      | none => (p,.failed (some "trampoline allocation failed"))
      | some page =>
        let built := body page kJmpAbs
        if built.ok then patch os p target handler page false built else (p,.failed built.reason)

/-- `RemoveAll`, with what `mprotect` answers for each patch. -/
def removeAll (protect : Patch → Bool) (p : Process) : Process :=
  { p with
    memory := p.patches.foldl
      (fun memory patch => if protect patch then write memory patch.target patch.orig else memory) p.memory
    patches := [] }

end S2Script.Detours
