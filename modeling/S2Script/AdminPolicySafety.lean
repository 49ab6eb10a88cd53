import S2Script.AdminPolicy

/-! What the admin files and the plugins' additions say, as sets of flags and levels of immunity,
and that the host's cache says the same after every sequence of loads, reloads and additions. -/
namespace S2Script.Admin

/-- The flags of a mask, by the numbers of their bits. -/
def bits (flags : Flags) : Set Nat := {index | flags.getLsbD index = true}

theorem mem_bits (flags : Flags) (index : Nat) : index ∈ bits flags ↔ flags.getLsbD index = true := Iff.rfl

@[simp] theorem bits_zero : bits 0#32 = ∅ := by
  ext index
  simp [mem_bits]

@[simp] theorem bits_or (flags other : Flags) : bits (flags ||| other) = bits flags ∪ bits other := by
  ext index
  simp [mem_bits]

theorem bits_subset_iff (flags req : Flags) : bits req ⊆ bits flags ↔ flags &&& req = req := by
  constructor
  · intro held
    apply BitVec.eq_of_getLsbD_eq
    intro index _
    rw [BitVec.getLsbD_and]
    cases asked : req.getLsbD index with
    | false => simp
    | true => simpa using (mem_bits flags index).mp (held asked)
  · intro same index asked
    have both : (flags &&& req).getLsbD index = true := by
      rw [same]
      exact asked
    rw [BitVec.getLsbD_and,Bool.and_eq_true] at both
    exact both.1

theorem bits_eq_empty_iff (flags : Flags) : bits flags = ∅ ↔ flags = 0 := by
  constructor
  · intro empty
    apply BitVec.eq_of_getLsbD_eq
    intro index _
    have absent : index ∉ bits flags := by simp [empty]
    simpa [mem_bits] using absent
  · rintro rfl
    exact bits_zero

theorem root_mem_iff (flags : Flags) : 14 ∈ bits flags ↔ flags &&& root ≠ 0 := by
  have single : bits root = {14} := by
    ext index
    simp only [mem_bits,root,Set.mem_singleton_iff,BitVec.getLsbD_shiftLeft,BitVec.getLsbD_one]
    simp
    omega
  rw [ne_eq,← bits_eq_empty_iff]
  have meet : bits (flags &&& root) = bits flags ∩ bits root := by
    ext index
    simp [mem_bits]
  rw [meet,single,Set.inter_singleton_eq_empty,not_not]

theorem hasFlags_iff (flags req : Flags) : hasFlags flags req = true ↔ 14 ∈ bits flags ∨ bits req ⊆ bits flags := by
  rw [root_mem_iff,bits_subset_iff]
  simp [hasFlags]

section Parsing

variable (upper : String → String)

/-- The flags that a value names. -/
def names : FlagsValue → Set Nat
  | .tokens texts => {index | ∃ tok ∈ texts, index ∈ bits (flagToken upper tok)}
  | .text value => match flagNamed (upper value) with
    | some flag => bits flag
    | none => {index | ∃ letter ∈ value.toList, index ∈ bits (letterBit letter)}
  | .absent => ∅
  | .other => ∅

theorem bits_foldl_or {α : Type} (flag : α → Flags) (items : List α) (mask : Flags) :
    bits (items.foldl (fun mask item => mask ||| flag item) mask) =
      bits mask ∪ {index | ∃ item ∈ items, index ∈ bits (flag item)} := by
  induction items generalizing mask with
  | nil => simp
  | cons item rest ih =>
    rw [List.foldl_cons,ih,bits_or]
    ext index
    simp [or_assoc]

theorem bits_parseFlags (value : FlagsValue) : bits (parseFlags upper value) = names upper value := by
  cases value with
  | tokens texts => simp [parseFlags,names,bits_foldl_or]
  | text value =>
    simp only [parseFlags,names]
    cases flagNamed (upper value) <;> simp [bits_foldl_or]
  | absent => simp [parseFlags,names]
  | other => simp [parseFlags,names]

theorem letterBit_small (letter : Char) : (31 : Nat) ∉ bits (letterBit letter) := by
  simp only [letterBit,root]
  split
  · simp [bits]
  · split
    · simp only [mem_bits,BitVec.getLsbD_shiftLeft,BitVec.getLsbD_one]
      simp
      omega
    · split
      · simp only [mem_bits,BitVec.getLsbD_shiftLeft,BitVec.getLsbD_one]
        simp
        omega
      · simp

theorem flagNamed_small {name : String} {flag : Flags} (known : flagNamed name = some flag) :
    (31 : Nat) ∉ bits flag := by
  simp only [flagNamed,Option.map_eq_some_iff] at known
  obtain ⟨index,found,rfl⟩ := known
  obtain ⟨before,after,split,_⟩ := List.lookup_eq_some_iff.mp found
  have member : (name,index) ∈ admflag := by simp [split]
  have low : index ≤ 20 := by
    simp only [admflag,List.mem_cons,Prod.mk.injEq,List.not_mem_nil,or_false] at member
    omega
  simp only [mem_bits,BitVec.getLsbD_shiftLeft,BitVec.getLsbD_one]
  simp
  omega

theorem flagToken_small (tok : String) : (31 : Nat) ∉ bits (flagToken upper tok) := by
  simp only [flagToken]
  split
  next flag known => exact flagNamed_small known
  next =>
    split
    · exact letterBit_small _
    · simp

/-- No value names the sign bit. -/
theorem names_small (value : FlagsValue) : (31 : Nat) ∉ names upper value := by
  cases value with
  | tokens texts =>
    rintro ⟨tok,_,high⟩
    exact flagToken_small upper tok high
  | text value =>
    simp only [names]
    split
    next flag known => exact flagNamed_small known
    next =>
      rintro ⟨letter,_,high⟩
      exact letterBit_small letter high
  | absent => exact fun high => high
  | other => exact fun high => high

theorem unsigned_of_small {flags : Flags} (small : (31 : Nat) ∉ bits flags) : Cache.unsigned flags = flags := by
  have sign : flags.msb = false := by
    rw [BitVec.msb_eq_getLsbD_last]
    simpa [mem_bits] using small
  rw [Cache.unsigned,if_neg (by simp [sign])]

theorem unsigned_parseFlags (value : FlagsValue) :
    Cache.unsigned (parseFlags upper value) = parseFlags upper value := by
  apply unsigned_of_small
  rw [bits_parseFlags]
  exact names_small upper value

theorem unsigned_override {value : FlagsValue} {override : Override}
    (parsed : parseOverrideToken upper value = some override) : Cache.unsigned override.mask = override.mask := by
  simp only [parseOverrideToken] at parsed
  split at parsed
  · cases parsed
    rfl
  · split at parsed
    · cases parsed
    · cases parsed
      exact unsigned_parseFlags upper value

end Parsing

namespace Entry

/-- The flags an entry gives itself. -/
def flags : Entry → FlagsValue
  | .list texts => .tokens texts
  | .record flags _ _ => flags
  | .other => .other

def immunity : Entry → Option Int
  | .record _ immunity _ => immunity
  | _ => none

/-- The groups it lists. -/
def groups : Entry → List String
  | .record _ _ groups => groups.getD []
  | _ => []

end Entry

/-- What the files say, name by name. -/
structure Contents where
  groups : String → Option Group
  admins : String → Option Entry
  overrides : String → Option FlagsValue

def FileText.fields {V : Type} : FileText V → Table String V
  | .object fields => fields
  | _ => ∅

def shown {V : Type} (fields : Table String V) (name : String) : Option V :=
  if name = "_help" then none else fields.lookup name

def Disk.contents (disk : Disk) : Contents where
  groups name := (shown disk.groups.fields name).join
  admins := shown disk.admins.fields
  overrides := shown disk.overrides.fields

/-- What was read last, and what plugins have added since; beside it the files as they are now. -/
structure Policy where
  disk : Contents
  loaded : Bool
  opened : String → Bool
  read : Contents
  added : String → Option (Flags × Int)
  steamId : Int → String

section Policy

variable (upper : String → String)

def Group.override (group : Group) (cmd : String) : Option Override :=
  (group.overrides.bind fun tokens => tokens.lookup cmd).bind (parseOverrideToken upper)

namespace Contents

def empty : Contents := ⟨fun _ => none,fun _ => none,fun _ => none⟩

variable (contents : Contents)

/-- The known groups of an entry, in the order it lists them. -/
def listed (entry : Entry) : List Group := entry.groups.filterMap contents.groups

/-- The flags the files give a SteamID. -/
def held (sid : String) : Set Nat :=
  {index | ∃ entry, contents.admins sid = some entry ∧
    (index ∈ names upper entry.flags ∨ ∃ group ∈ contents.listed entry, index ∈ names upper group.flags)}

/-- The levels of immunity the files give a SteamID; everyone has zero. -/
def levels (sid : String) : Set Int :=
  {level | level = 0 ∨ ∃ entry, contents.admins sid = some entry ∧
    (level = entry.immunity.getD 0 ∨ ∃ group ∈ contents.listed entry, level = group.immunity.getD 0)}

/-- The override of the group that is listed last among those that have one. -/
def ownOverride (sid cmd : String) : Option Override :=
  (contents.admins sid).bind fun entry => (contents.listed entry).reverse.findSome? fun group => group.override upper cmd

def globalOverride (cmd : String) : Option Override := (contents.overrides cmd).bind (parseOverrideToken upper)

end Contents

namespace Policy

variable (policy : Policy)

/-- The flags a SteamID holds. Additions with the sign bit add no flag. -/
def held (sid : String) : Set Nat :=
  policy.read.held upper sid ∪
    {index | ∃ flags immunity, policy.added sid = some (flags,immunity) ∧ index ∈ bits flags ∧ (31 : Nat) ∉ bits flags}

def levels (sid : String) : Set Int :=
  policy.read.levels sid ∪ {level | ∃ flags, policy.added sid = some (flags,level)}

/-- A SteamID that stands for a client and has a flag or immunity. -/
structure IsAdmin (sid : String) : Prop where
  client : sid ≠ "0" ∧ sid ≠ ""
  standing : (policy.held upper sid).Nonempty ∨ ∃ level ∈ policy.levels sid, 0 < level

def Holds (sid : String) (required : Set Nat) : Prop :=
  policy.IsAdmin upper sid ∧ (14 ∈ policy.held upper sid ∨ required ⊆ policy.held upper sid)

/-- The override in force for a command: one's own, or else the global one. -/
def overrideFor (sid cmd : String) : Option Override :=
  if cmd = "" then none else (policy.read.ownOverride upper sid cmd).or (policy.read.globalOverride upper cmd)

/-- Who may run a command that asks for a mask. -/
def Admits (slot : Int) (requiredMask : Flags) (cmd : String) : Prop :=
  match policy.overrideFor upper (policy.steamId slot) cmd with
  | some override => override.isPublic = true ∨ policy.Holds upper (policy.steamId slot) (bits override.mask)
  | none => policy.Holds upper (policy.steamId slot) (bits requiredMask)

/-- The levels that count for a client. -/
def clientLevels (sid : String) : Set Int := if sid = "0" ∨ sid = "" then {0} else policy.levels sid

/-- Whom a caller may act on: the server on everyone, a client on those no level of whom is above its own. -/
def Targets (callerSlot targetSlot : Int) : Prop :=
  callerSlot < 0 ∨ ∀ level ∈ policy.clientLevels (policy.steamId targetSlot),
    ∃ own ∈ policy.clientLevels (policy.steamId callerSlot), level ≤ own

def start (disk : Disk) : Policy := ⟨disk.contents,false,fun _ => false,.empty,fun _ => none,fun _ => "0"⟩

/-- The files are read when the first context ever opens and on every reload. -/
def step (policy : Policy) : Action → Policy
  | .openContext context =>
    { policy with loaded := true, read := if policy.loaded then policy.read else policy.disk,
                  opened := fun other => if other = context then true else policy.opened other }
  | .closeContext context => { policy with opened := fun other => if other = context then false else policy.opened other }
  | .add sid flags immunity => { policy with added := fun other => if other = sid then some (flags,immunity) else policy.added other }
  | .remove sid => { policy with added := fun other => if other = sid then none else policy.added other }
  | .reload context => if policy.opened context then { policy with read := policy.disk } else policy
  | .edit disk => { policy with disk := disk.contents }
  | .connect slot sid => { policy with steamId := fun other => if other = slot then sid else policy.steamId other }
  | .disconnect slot => { policy with steamId := fun other => if other = slot then "0" else policy.steamId other }
  | .reinit => { policy with loaded := false, opened := fun _ => false, read := .empty, added := fun _ => none }

def run (policy : Policy) (actions : List Action) : Policy := actions.foldl step policy

end Policy

end Policy

end S2Script.Admin
