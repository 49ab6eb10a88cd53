import Mathlib

/-! The physical ABI of a native function, as the host computes it and as the shim validates it: the
bytes of stack a call copies, and the fingerprint that both compare. -/
namespace S2Script.EngineAbi

section Capabilities

def Platform : String := "linux-x86_64-sysv"

def atoms : List (String × Nat) :=
  [("u8",1),("i32",4),("u32",4),("i64",8),("u64",8),("f32",4),("f64",8),("ptr",8)]

def maxParameters : Nat := 32
def maxCifArguments : Nat := 33
def maxStackBytes : Nat := 256
def stackSafetyBuffer : Nat := 128
def gpRegisters : Nat := 6
def sseRegisters : Nat := 8

end Capabilities

section Host

structure PhysicalAbi where
  platform : String
  memberReceiver : Bool
  parameters : List String
  returns : String
deriving DecidableEq, Repr

def valid (s : String) : Bool := atoms.any fun atom => atom.1 = s

def floating (p : String) : Bool := p = "f32" || p = "f64"

/-- The registers taken so far, and the bytes of what no register was left for. -/
structure Registers where
  gp : Nat
  sse : Nat
  spill : Nat

def placeBytes (r : Registers) (p : String) : Except String Registers :=
  if !valid p then .error "invalid physical parameter"
  else if floating p then
    .ok { r with sse := r.sse + 1,spill := if sseRegisters ≤ r.sse then r.spill + 8 else r.spill }
  else .ok { r with gp := r.gp + 1,spill := if gpRegisters ≤ r.gp then r.spill + 8 else r.spill }

/-- The loop of `stack_bytes`. -/
def placeAll (r : Registers) : List String → Except String Registers
  | [] => .ok r
  | p :: rest =>
    match placeBytes r p with
    | .error why => .error why
    | .ok r => placeAll r rest

/-- `stack_bytes`. -/
def PhysicalAbi.stackBytes (abi : PhysicalAbi) : Except String Nat :=
  if abi.platform ≠ Platform ∨ abi.parameters.length > maxParameters ∨
      abi.parameters.length + abi.memberReceiver.toNat > maxCifArguments then .error "unsupported physical ABI"
  else if abi.returns ≠ "void" ∧ !valid abi.returns then .error "invalid physical return"
  else
    match placeAll ⟨abi.memberReceiver.toNat,0,0⟩ abi.parameters with
    | .error why => .error why
    | .ok r =>
      let bytes := max stackSafetyBuffer ((r.spill + 15) / 16 * 16)
      if bytes > maxStackBytes then .error "physical stack limit" else .ok bytes

def receiverText (memberReceiver : Bool) : String := if memberReceiver then "entity" else "none"

/-- `join(",")`. -/
def join : List String → String
  | [] => ""
  | a :: rest => rest.foldl (fun text b => text ++ "," ++ b) a

/-- `fingerprint`. -/
def PhysicalAbi.fingerprint (abi : PhysicalAbi) : Except String String :=
  match abi.stackBytes with
  | .error why => .error why
  | .ok _ => .ok (abi.platform ++ ":" ++ receiverText abi.memberReceiver ++ ":" ++ abi.returns ++ "("
      ++ join abi.parameters ++ ")")

end Host

section Shim

structure AbiAtom where
  native : String
  projection : String
deriving DecidableEq, Repr

structure AbiSignature where
  platform : String
  memberReceiver : Bool
  returns : AbiAtom
  parameters : List AbiAtom
  varargs : Bool
deriving DecidableEq, Repr

structure AbiInfo where
  fingerprint : String
  stackBytes : Nat
deriving DecidableEq, Repr

/-- `Width`. -/
def width (atom : String) : Nat :=
  match atoms.find? fun item => item.1 = atom with
  | some item => item.2
  | none => 0

/-- `StackCopyBytes`. -/
def stackCopyBytes (slots : Nat) : Except String Nat :=
  if slots > maxStackBytes / 8 then .error "stack-copy byte overflow"
  else .ok (max stackSafetyBuffer (UInt64.ofNat (slots * 8 + 15) &&& ~~~15).toNat)

/-- `check` of an atom. -/
def check (a : AbiAtom) (position : String) (ret : Bool) : Except String Unit :=
  if width a.native = 0 ∧ ¬(ret = true ∧ a.native = "void") then
    .error ("unsupported " ++ position ++ ": " ++ a.native)
  else if a.native = "u8" ∧ a.projection ≠ "bool" then .error ("unsupported u8 projection: " ++ a.projection)
  else .ok ()

/-- The counters of `Validate`, and the fingerprint so far. -/
structure Progress where
  gp : Nat
  sse : Nat
  spills : Nat
  fingerprint : String

/-- One parameter that passed its check. -/
def placeSlot (g : Progress) (i : Nat) (atom : String) : Progress :=
  let text := (if i = 0 then g.fingerprint else g.fingerprint ++ ",") ++ atom
  if floating atom then
    { g with sse := g.sse + 1,spills := if sseRegisters ≤ g.sse then g.spills + 1 else g.spills,fingerprint := text }
  else { g with gp := g.gp + 1,spills := if gpRegisters ≤ g.gp then g.spills + 1 else g.spills,fingerprint := text }

/-- The loop of `Validate`, from parameter `i` on. -/
def placeSlots (g : Progress) (i : Nat) : List AbiAtom → Except String Progress
  | [] => .ok g
  | a :: rest =>
    match check a ("parameter[" ++ toString i ++ "]") false with
    | .error why => .error why
    | .ok () => placeSlots (placeSlot g i a.native) (i + 1) rest

/-- `Validate`. -/
def validate (s : AbiSignature) : Except String AbiInfo :=
  if s.platform ≠ Platform then .error ("unsupported platform: " ++ s.platform)
  else if s.varargs then .error "unsupported varargs"
  else
    match check s.returns "return" true with
    | .error why => .error why
    | .ok () =>
      if s.parameters.length > maxParameters then .error "unsupported parameter count"
      else
        match placeSlots ⟨s.memberReceiver.toNat,0,0,s.platform ++ ":" ++ receiverText s.memberReceiver ++ ":"
            ++ s.returns.native ++ "("⟩ 0 s.parameters with
        | .error why => .error why
        | .ok g =>
          match stackCopyBytes g.spills with
          | .error why => .error why
          | .ok bytes => .ok ⟨g.fingerprint ++ ")",bytes⟩

/-- The arguments that `RuntimeBinding::Create` hands to `ffi_prep_cif`. -/
def argumentAtoms (s : AbiSignature) : List String :=
  (if s.memberReceiver then ["ptr"] else []) ++ s.parameters.map AbiAtom.native

/-- `RuntimeBinding::Create` up to the preparation of the CIF. -/
def createInfo (s : AbiSignature) : Except String AbiInfo :=
  match validate s with
  | .error why => .error why
  | .ok info => if (argumentAtoms s).length > maxCifArguments then .error "CIF argument overflow" else .ok info

end Shim

section Spills

/-- The physical ABI the host has of the shim's signature. -/
def AbiSignature.physical (s : AbiSignature) : PhysicalAbi :=
  ⟨s.platform,s.memberReceiver,s.parameters.map AbiAtom.native,s.returns.native⟩

/-- The arguments that take an SSE register. -/
def sseArguments (parameters : List String) : Nat := parameters.countP floating

/-- The arguments that take an integer register, without the receiver. -/
def gpArguments (parameters : List String) : Nat := parameters.countP fun p => !floating p

/-- What the integer arguments `gp` and the floating ones `sse` leave for the stack, in slots. -/
def spilled (gp sse : Nat) : Nat := (gp - gpRegisters) + (sse - sseRegisters)

/-- The SysV bytes of the arguments that are passed on the stack. -/
def PhysicalAbi.spillBytes (abi : PhysicalAbi) : Nat :=
  8 * spilled (abi.memberReceiver.toNat + gpArguments abi.parameters) (sseArguments abi.parameters)

/-- The bytes copied for so many bytes of spilled arguments. -/
def copied (spill : Nat) : Nat := max stackSafetyBuffer ((spill + 15) / 16 * 16)

/-- What both sides take. -/
structure PhysicalAbi.Supported (abi : PhysicalAbi) : Prop where
  platform : abi.platform = Platform
  count : abi.parameters.length ≤ maxParameters
  returns : abi.returns = "void" ∨ valid abi.returns = true
  parameters : ∀ p ∈ abi.parameters, valid p = true

theorem spilled_sse (gp sse : Nat) :
    spilled gp (sse + 1) = if sseRegisters ≤ sse then spilled gp sse + 1 else spilled gp sse := by
  by_cases full : sseRegisters ≤ sse
  · simp only [if_pos full,spilled]
    omega
  · simp only [if_neg full,spilled]
    omega

theorem spilled_gp (gp sse : Nat) :
    spilled (gp + 1) sse = if gpRegisters ≤ gp then spilled gp sse + 1 else spilled gp sse := by
  by_cases full : gpRegisters ≤ gp
  · simp only [if_pos full,spilled]
    omega
  · simp only [if_neg full,spilled]
    omega

theorem arguments_length (parameters : List String) :
    gpArguments parameters + sseArguments parameters = parameters.length := by
  have split := List.length_eq_countP_add_countP floating (l := parameters)
  simp only [gpArguments,sseArguments]
  simp only [Bool.not_eq_true] at split
  have same : parameters.countP (fun p => !floating p) = parameters.countP (fun p => decide (floating p = false)) :=
    congrArg (fun q => parameters.countP q) (funext fun p => by cases floating p <;> rfl)
  omega

theorem spillBytes_le (abi : PhysicalAbi) (count : abi.parameters.length ≤ maxParameters) :
    abi.spillBytes ≤ 216 := by
  have total := arguments_length abi.parameters
  have receiver : abi.memberReceiver.toNat ≤ 1 := Bool.toNat_le _
  simp only [maxParameters] at count
  simp only [PhysicalAbi.spillBytes,spilled,gpRegisters,sseRegisters]
  omega

theorem copied_aligned (spill : Nat) : 16 ∣ copied spill := by
  simp only [copied,stackSafetyBuffer]
  omega

theorem le_copied (spill : Nat) : spill ≤ copied spill := by
  simp only [copied,stackSafetyBuffer]
  omega

end Spills

section HostRun

/-- The host's loop keeps the bytes of what has spilled. -/
theorem placeAll_ok : ∀ (parameters : List String) (r : Registers), (∀ p ∈ parameters, valid p = true) →
    r.spill = 8 * spilled r.gp r.sse →
    ∃ r', placeAll r parameters = .ok r' ∧
      r'.spill = 8 * spilled (r.gp + gpArguments parameters) (r.sse + sseArguments parameters)
  | [],r,_,level => ⟨r,rfl,level⟩
  | p :: rest,r,known,level => by
    have tail := fun q member => known q (List.mem_cons_of_mem p member)
    simp only [placeAll,placeBytes,known p List.mem_cons_self,Bool.not_true,Bool.false_eq_true,if_false]
    cases kind : floating p with
    | true =>
      obtain ⟨r',placed,spill⟩ := placeAll_ok rest
        { r with sse := r.sse + 1,spill := if sseRegisters ≤ r.sse then r.spill + 8 else r.spill } tail
        (by simp only [spilled_sse]; split <;> omega)
      refine ⟨r',placed,spill.trans ?_⟩
      simp only [gpArguments,sseArguments,List.countP_cons,kind,Bool.not_true,Bool.false_eq_true,if_true,if_false]
      congr 2
      omega
    | false =>
      obtain ⟨r',placed,spill⟩ := placeAll_ok rest
        { r with gp := r.gp + 1,spill := if gpRegisters ≤ r.gp then r.spill + 8 else r.spill } tail
        (by simp only [spilled_gp]; split <;> omega)
      refine ⟨r',placed,spill.trans ?_⟩
      simp only [gpArguments,sseArguments,List.countP_cons,kind,Bool.not_false,Bool.false_eq_true,if_true,if_false]
      congr 2
      omega

theorem placeAll_valid : ∀ (parameters : List String) (r r' : Registers), placeAll r parameters = .ok r' →
    ∀ p ∈ parameters, valid p = true
  | [],_,_,_,p,member => absurd member List.not_mem_nil
  | q :: rest,r,r',placed,p,member => by
    simp only [placeAll,placeBytes] at placed
    cases known : valid q with
    | false => simp [known] at placed
    | true =>
      simp only [known,Bool.not_true,Bool.false_eq_true,if_false] at placed
      rcases List.mem_cons.mp member with rfl | later
      · exact known
      · split at placed
        · cases placed
        · exact placeAll_valid rest _ r' placed p later

/-- `stack_bytes` takes the supported ABIs, and gives what their spilled arguments need. -/
theorem stackBytes_iff (abi : PhysicalAbi) (bytes : Nat) :
    abi.stackBytes = .ok bytes ↔ abi.Supported ∧ bytes = copied abi.spillBytes := by
  constructor
  · intro done
    simp only [PhysicalAbi.stackBytes] at done
    split at done
    · cases done
    · next limits =>
      split at done
      · cases done
      · next result =>
        split at done
        · cases done
        · next r placed =>
          split at done
          · cases done
          · have known := placeAll_valid _ _ _ placed
            obtain ⟨r',again,spill⟩ := placeAll_ok abi.parameters ⟨abi.memberReceiver.toNat,0,0⟩ known
              (by cases abi.memberReceiver <;> rfl)
            cases placed.symm.trans again
            cases done
            simp only [not_or,Decidable.not_not,Nat.not_lt] at limits
            simp only [not_and,Bool.not_eq_true',Bool.not_eq_false] at result
            refine ⟨⟨limits.1,limits.2.1,?_,known⟩,?_⟩
            · exact Decidable.or_iff_not_imp_left.mpr result
            · simp only [copied,PhysicalAbi.spillBytes,spill,Nat.zero_add]
  · rintro ⟨supported,rfl⟩
    obtain ⟨r',placed,spill⟩ := placeAll_ok abi.parameters ⟨abi.memberReceiver.toNat,0,0⟩ supported.parameters
      (by cases abi.memberReceiver <;> rfl)
    have count := supported.count
    have receiver : abi.memberReceiver.toNat ≤ 1 := Bool.toNat_le _
    have limits : ¬(abi.platform ≠ Platform ∨ abi.parameters.length > maxParameters ∨
        abi.parameters.length + abi.memberReceiver.toNat > maxCifArguments) := by
      simp only [maxParameters] at count
      rintro (platform | long | wide)
      · exact platform supported.platform
      · exact absurd long (Nat.not_lt.mpr supported.count)
      · simp only [maxCifArguments] at wide
        omega
    have result : ¬(abi.returns ≠ "void" ∧ (!valid abi.returns) = true) := by
      rintro ⟨nonvoid,unknown⟩
      rcases supported.returns with void | known
      · exact nonvoid void
      · simp [known] at unknown
    have level : r'.spill = abi.spillBytes := by simpa only [Nat.zero_add,PhysicalAbi.spillBytes] using spill
    have small := spillBytes_le abi count
    have within : ¬max stackSafetyBuffer ((r'.spill + 15) / 16 * 16) > maxStackBytes := by
      simp only [level,stackSafetyBuffer,maxStackBytes]
      omega
    simp only [PhysicalAbi.stackBytes,if_neg limits,if_neg result,placed,if_neg within]
    simp only [copied,level]

/-- The text of a fingerprint. -/
def PhysicalAbi.fingerprintText (abi : PhysicalAbi) : String :=
  abi.platform ++ ":" ++ receiverText abi.memberReceiver ++ ":" ++ abi.returns ++ "(" ++ join abi.parameters ++ ")"

theorem fingerprint_iff (abi : PhysicalAbi) (fingerprint : String) :
    abi.fingerprint = .ok fingerprint ↔ abi.Supported ∧ fingerprint = abi.fingerprintText := by
  constructor
  · intro done
    simp only [PhysicalAbi.fingerprint] at done
    split at done
    · cases done
    · next bytes stack =>
      cases done
      exact ⟨((stackBytes_iff abi bytes).mp stack).1,rfl⟩
  · rintro ⟨supported,rfl⟩
    simp only [PhysicalAbi.fingerprint,(stackBytes_iff abi _).mpr ⟨supported,rfl⟩]
    rfl

end HostRun

section ShimRun

/-- The shim has a width for the host's atoms and no others. -/
theorem width_eq_zero (atom : String) : width atom = 0 ↔ valid atom = false := by
  simp only [width,valid]
  cases found : atoms.find? fun item => item.1 = atom with
  | none =>
    have none := List.find?_eq_none.mp found
    refine ⟨fun _ => ?_,fun _ => rfl⟩
    exact List.any_eq_false.mpr none
  | some item =>
    have member := List.mem_of_find?_eq_some found
    have named : decide (item.1 = atom) = true := List.find?_some (p := fun a : String × Nat => decide (a.1 = atom)) found
    have known : (atoms.any fun a => decide (a.1 = atom)) = true := List.any_eq_true.mpr ⟨item,member,named⟩
    have positive : ∀ a ∈ atoms, a.2 ≠ 0 := by decide
    exact ⟨fun zero => absurd zero (positive item member),fun unknown => absurd (known.symm.trans unknown) (by decide)⟩

/-- Every u8 is projected as a bool. -/
def AbiAtom.ProjectsBool (a : AbiAtom) : Prop := a.native = "u8" → a.projection = "bool"

theorem check_iff (a : AbiAtom) (position : String) (ret : Bool) (projects : a.ProjectsBool) :
    check a position ret = .ok () ↔ valid a.native = true ∨ (ret = true ∧ a.native = "void") := by
  have projected : ¬(a.native = "u8" ∧ a.projection ≠ "bool") := fun both => both.2 (projects both.1)
  simp only [check,if_neg projected,width_eq_zero]
  by_cases bad : valid a.native = false ∧ ¬(ret = true ∧ a.native = "void")
  · simp only [if_pos bad,reduceCtorEq,false_iff]
    rintro (known | void)
    · exact absurd (known.symm.trans bad.1) (by decide)
    · exact bad.2 void
  · simp only [if_neg bad,true_iff]
    cases known : valid a.native with
    | true => exact .inl rfl
    | false => exact .inr (Decidable.not_not.mp fun other => bad ⟨known,other⟩)

/-- The shim rounds up in slots to what the host rounds up to in bytes. -/
theorem stackCopyBytes_eq (slots : Nat) (few : slots ≤ maxStackBytes / 8) :
    stackCopyBytes slots = .ok (copied (8 * slots)) := by
  have rounded : ∀ n ≤ 32, (UInt64.ofNat (n * 8 + 15) &&& ~~~15).toNat = (8 * n + 15) / 16 * 16 := by decide
  simp only [stackCopyBytes,if_neg (Nat.not_lt.mpr few),rounded slots few,copied]

/-- What the loop of `Validate` appends from parameter `i` on. -/
def listed (text : String) (i : Nat) (natives : List String) : String :=
  match i,natives with
  | 0,[] => text
  | 0,a :: rest => rest.foldl (fun text b => text ++ "," ++ b) (text ++ a)
  | _ + 1,natives => natives.foldl (fun text b => text ++ "," ++ b) text

theorem foldl_append (text : String) : ∀ (natives : List String) (front : String),
    natives.foldl (fun text b => text ++ "," ++ b) (text ++ front) =
      text ++ natives.foldl (fun text b => text ++ "," ++ b) front
  | [],_ => rfl
  | b :: rest,front => by
    simp only [List.foldl_cons]
    have grouped : text ++ front ++ "," ++ b = text ++ (front ++ "," ++ b) := by simp only [String.append_assoc]
    simp only [grouped]
    exact foldl_append text rest (front ++ "," ++ b)

theorem listed_zero (text : String) (natives : List String) : listed text 0 natives = text ++ join natives := by
  cases natives with
  | nil => simp [listed,join]
  | cons a rest => exact foldl_append text rest a

/-- The shim's loop counts the spilled slots and lists the atoms. -/
theorem placeSlots_ok : ∀ (parameters : List AbiAtom) (g : Progress) (i : Nat),
    (∀ a ∈ parameters, a.ProjectsBool) → (∀ a ∈ parameters, valid a.native = true) →
    g.spills = spilled g.gp g.sse →
    ∃ g', placeSlots g i parameters = .ok g' ∧
      g'.spills = spilled (g.gp + gpArguments (parameters.map AbiAtom.native))
        (g.sse + sseArguments (parameters.map AbiAtom.native)) ∧
      g'.fingerprint = listed g.fingerprint i (parameters.map AbiAtom.native)
  | [],g,i,_,_,level => ⟨g,rfl,level,by cases i <;> rfl⟩
  | a :: rest,g,i,projects,known,level => by
    have checked := (check_iff a ("parameter[" ++ toString i ++ "]") false (projects a List.mem_cons_self)).mpr
      (.inl (known a List.mem_cons_self))
    have level' : (placeSlot g i a.native).spills = spilled (placeSlot g i a.native).gp (placeSlot g i a.native).sse := by
      cases kind : floating a.native with
      | true =>
        simp only [placeSlot,kind,if_true,spilled_sse]
        split <;> omega
      | false =>
        simp only [placeSlot,kind,Bool.false_eq_true,if_false,spilled_gp]
        split <;> omega
    obtain ⟨g',placed,spills,text⟩ := placeSlots_ok rest (placeSlot g i a.native) (i + 1)
      (fun b member => projects b (List.mem_cons_of_mem a member))
      (fun b member => known b (List.mem_cons_of_mem a member)) level'
    refine ⟨g',by simp only [placeSlots,checked,placed],spills.trans ?_,text.trans ?_⟩
    · cases kind : floating a.native with
      | true =>
        simp only [placeSlot,kind,if_true,gpArguments,sseArguments,List.map_cons,List.countP_cons,Bool.not_true,
          Bool.false_eq_true,if_false]
        congr 1
        omega
      | false =>
        simp only [placeSlot,kind,if_true,gpArguments,sseArguments,List.map_cons,List.countP_cons,Bool.not_false,
          Bool.false_eq_true,if_false]
        congr 1
        omega
    · have grown : (placeSlot g i a.native).fingerprint =
          (if i = 0 then g.fingerprint else g.fingerprint ++ ",") ++ a.native := by
        cases kind : floating a.native <;> simp [placeSlot,kind]
      cases i with
      | zero => simp only [listed,grown,if_true,List.map_cons]
      | succ i => simp only [listed,grown,if_false,List.map_cons,List.foldl_cons,Nat.succ_ne_zero]

theorem placeSlots_valid : ∀ (parameters : List AbiAtom) (g g' : Progress) (i : Nat),
    placeSlots g i parameters = .ok g' → (∀ a ∈ parameters, a.ProjectsBool) →
    ∀ a ∈ parameters, valid a.native = true
  | [],_,_,_,_,_,a,member => absurd member List.not_mem_nil
  | b :: rest,g,g',i,placed,projects,a,member => by
    simp only [placeSlots] at placed
    split at placed
    · cases placed
    · next checked =>
      rcases List.mem_cons.mp member with rfl | later
      · rcases (check_iff _ _ false (projects _ List.mem_cons_self)).mp checked with known | void
        · exact known
        · exact absurd void.1 (by decide)
      · exact placeSlots_valid rest _ g' _ placed (fun c inside => projects c (List.mem_cons_of_mem b inside)) a later

/-- `Validate` takes what the host takes, and gives the host's bytes and text. -/
theorem validate_iff (s : AbiSignature) (info : AbiInfo) (fixed : s.varargs = false)
    (projects : ∀ a ∈ s.returns :: s.parameters, a.ProjectsBool) :
    validate s = .ok info ↔
      s.physical.Supported ∧ info = ⟨s.physical.fingerprintText,copied s.physical.spillBytes⟩ := by
  have ofReturn := check_iff s.returns "return" true (projects _ List.mem_cons_self)
  have ofParameters := fun a member => projects a (List.mem_cons_of_mem s.returns member)
  have level : (0 : Nat) = spilled s.memberReceiver.toNat 0 := by cases s.memberReceiver <;> rfl
  have given : ∀ g : Progress, s.physical.Supported →
      g.spills = spilled (s.memberReceiver.toNat + gpArguments s.physical.parameters)
        (0 + sseArguments s.physical.parameters) →
      stackCopyBytes g.spills = .ok (copied s.physical.spillBytes) := by
    intro g supported spills
    have bytes : 8 * g.spills = s.physical.spillBytes := by
      simp only [spills,Nat.zero_add]
      rfl
    have small := spillBytes_le s.physical supported.count
    have few : g.spills ≤ maxStackBytes / 8 := by
      simp only [maxStackBytes]
      omega
    exact (stackCopyBytes_eq g.spills few).trans (congrArg (fun n => Except.ok (copied n)) bytes)
  constructor
  · intro done
    simp only [validate,fixed,Bool.false_eq_true,if_false] at done
    split at done
    · cases done
    · next platform =>
      split at done
      · cases done
      · next result =>
        split at done
        · cases done
        · next count =>
          split at done
          · cases done
          · next g placed =>
            have known := placeSlots_valid _ _ _ _ placed ofParameters
            have supported : s.physical.Supported := by
              refine ⟨Decidable.not_not.mp platform,?_,?_,?_⟩
              · exact List.length_map AbiAtom.native ▸ Nat.not_lt.mp count
              · rcases ofReturn.mp result with known | void
                · exact .inr known
                · exact .inl void.2
              · intro p member
                obtain ⟨a,inside,rfl⟩ := List.mem_map.mp member
                exact known a inside
            obtain ⟨g',again,spills,text⟩ := placeSlots_ok s.parameters ⟨s.memberReceiver.toNat,0,0,s.platform ++ ":" ++
              receiverText s.memberReceiver ++ ":" ++ s.returns.native ++ "("⟩ 0 ofParameters known level
            cases placed.symm.trans again
            simp only [given g supported spills] at done
            cases done
            refine ⟨supported,?_⟩
            simp only [text,listed_zero]
            rfl
  · rintro ⟨supported,rfl⟩
    have known : ∀ a ∈ s.parameters, valid a.native = true := fun a inside =>
      supported.parameters _ (List.mem_map_of_mem inside)
    obtain ⟨g,placed,spills,text⟩ := placeSlots_ok s.parameters ⟨s.memberReceiver.toNat,0,0,s.platform ++ ":" ++
      receiverText s.memberReceiver ++ ":" ++ s.returns.native ++ "("⟩ 0 ofParameters known level
    have result : check s.returns "return" true = .ok () := by
      apply ofReturn.mpr
      rcases supported.returns with void | known
      · exact .inr ⟨rfl,void⟩
      · exact .inl known
    have platform : ¬s.platform ≠ Platform := Decidable.not_not.mpr supported.platform
    have count : ¬s.parameters.length > maxParameters := by
      have count := supported.count
      simp only [AbiSignature.physical,List.length_map] at count
      exact Nat.not_lt.mpr count
    simp only [validate,if_neg platform,fixed,Bool.false_eq_true,if_false,result,if_neg count,placed,
      given g supported spills,text,listed_zero]
    rfl

theorem createInfo_iff (s : AbiSignature) (info : AbiInfo) (fixed : s.varargs = false)
    (projects : ∀ a ∈ s.returns :: s.parameters, a.ProjectsBool) :
    createInfo s = .ok info ↔
      s.physical.Supported ∧ info = ⟨s.physical.fingerprintText,copied s.physical.spillBytes⟩ := by
  have agreed := fun info => validate_iff s info fixed projects
  constructor
  · intro created
    simp only [createInfo] at created
    split at created
    · cases created
    · next info' valid =>
      split at created
      · cases created
      · cases created
        exact (agreed info).mp valid
  · intro supported
    have few : ¬(argumentAtoms s).length > maxCifArguments := by
      have count := supported.1.count
      simp only [AbiSignature.physical,List.length_map,maxParameters] at count
      simp only [argumentAtoms,List.length_append,List.length_map,maxCifArguments]
      split <;> simp only [List.length_cons,List.length_nil] <;> omega
    simp only [createInfo,(agreed info).mpr supported,if_neg few]

end ShimRun

section Fingerprints

/-- The signs that end an atom. -/
def ends (c : Char) : Bool := c = '(' || c = ')' || c = ','

/-- An atom's name as a fingerprint can be read back from. -/
structure Plain (atom : String) : Prop where
  nonempty : atom.toList ≠ []
  unbroken : ∀ c ∈ atom.toList, ends c = false

theorem plain_of_all {atom : String} (nonempty : atom.toList ≠ []) (all : (atom.toList.all fun c => !ends c) = true) :
    Plain atom :=
  ⟨nonempty,fun c member => by simpa only [Bool.not_eq_true'] using List.all_eq_true.mp all c member⟩

theorem plain_of_valid {atom : String} (known : valid atom = true) : Plain atom := by
  simp only [valid,atoms,List.any_cons,List.any_nil,Bool.or_false,Bool.or_eq_true,decide_eq_true_eq] at known
  rcases known with rfl | rfl | rfl | rfl | rfl | rfl | rfl | rfl <;> exact plain_of_all (by simp) rfl

/-- A word is told from the text by the sign that ends it. -/
theorem word_unique : ∀ (a b : List Char) (c d : Char) (x y : List Char),
    (∀ e ∈ a, ends e = false) → (∀ e ∈ b, ends e = false) → ends c = true → ends d = true →
    a ++ c :: x = b ++ d :: y → a = b ∧ c :: x = d :: y
  | [],[],_,_,_,_,_,_,_,_,same => ⟨rfl,same⟩
  | [],e :: b,c,d,x,y,_,whole,ended,_,same => by
    obtain ⟨rfl,-⟩ := List.cons.inj same
    exact absurd (ended.symm.trans (whole c List.mem_cons_self)) (by decide)
  | e :: a,[],c,d,x,y,whole,_,_,ended,same => by
    obtain ⟨rfl,-⟩ := List.cons.inj same
    exact absurd (ended.symm.trans (whole e List.mem_cons_self)) (by decide)
  | e :: a,f :: b,c,d,x,y,left,right,endedA,endedB,same => by
    obtain ⟨rfl,rest⟩ := List.cons.inj same
    obtain ⟨words,after⟩ := word_unique a b c d x y (fun g member => left g (List.mem_cons_of_mem e member))
      (fun g member => right g (List.mem_cons_of_mem e member)) endedA endedB rest
    exact ⟨congrArg (e :: ·) words,after⟩

/-- The text of a list of atoms after its first one, with the closing sign. -/
def continued : List String → List Char
  | [] => [')']
  | b :: rest => ',' :: (b.toList ++ continued rest)

theorem continued_cons (atoms : List String) : ∃ c x, continued atoms = c :: x ∧ ends c = true := by
  cases atoms with
  | nil => exact ⟨_,_,rfl,rfl⟩
  | cons b rest => exact ⟨_,_,rfl,rfl⟩

theorem closed_foldl : ∀ (rest : List String) (front : String),
    (rest.foldl (fun text b => text ++ "," ++ b) front ++ ")").toList = front.toList ++ continued rest
  | [],front => by simp [continued]
  | b :: rest,front => by
    simp only [List.foldl_cons]
    refine (closed_foldl rest (front ++ "," ++ b)).trans ?_
    simp [continued]

/-- Atoms and what follows them are told from their text. -/
theorem atom_unique {a b : String} {xs ys : List String} (plainA : ∀ c ∈ a.toList, ends c = false)
    (plainB : ∀ c ∈ b.toList, ends c = false) (same : a.toList ++ continued xs = b.toList ++ continued ys) :
    a = b ∧ continued xs = continued ys := by
  obtain ⟨c,x,first,ended⟩ := continued_cons xs
  obtain ⟨d,y,second,ended'⟩ := continued_cons ys
  simp only [first,second] at same ⊢
  obtain ⟨words,after⟩ := word_unique a.toList b.toList c d x y plainA plainB ended ended' same
  exact ⟨String.toList_injective words,after⟩

theorem continued_unique : ∀ (xs ys : List String), (∀ p ∈ xs, Plain p) → (∀ p ∈ ys, Plain p) →
    continued xs = continued ys → xs = ys
  | [],[],_,_,_ => rfl
  | [],b :: ys,_,_,same => absurd (List.cons.inj same).1 (by decide)
  | a :: xs,[],_,_,same => absurd (List.cons.inj same).1 (by decide)
  | a :: xs,b :: ys,plainX,plainY,same => by
    obtain ⟨rfl,after⟩ := atom_unique (plainX a List.mem_cons_self).unbroken (plainY b List.mem_cons_self).unbroken
      (List.cons.inj same).2
    exact congrArg (a :: ·) (continued_unique xs ys (fun p member => plainX p (List.mem_cons_of_mem a member))
      (fun p member => plainY p (List.mem_cons_of_mem a member)) after)

/-- A list of atoms is told from what a fingerprint lists between its parentheses. -/
theorem join_unique (xs ys : List String) (plainX : ∀ p ∈ xs, Plain p) (plainY : ∀ p ∈ ys, Plain p)
    (same : (join xs ++ ")").toList = (join ys ++ ")").toList) : xs = ys := by
  have never : ∀ (b : String) (rest : List String), Plain b → (join [] ++ ")").toList ≠ (join (b :: rest) ++ ")").toList := by
    intro b rest plain equal
    have text : [')'] = b.toList ++ continued rest := by
      simpa [join] using equal.trans (closed_foldl rest b)
    cases letters : b.toList with
    | nil => exact plain.nonempty letters
    | cons c cs =>
      simp only [letters,List.cons_append,List.cons.injEq] at text
      have inner := plain.unbroken c (letters ▸ List.mem_cons_self)
      exact absurd (text.1 ▸ inner) (by decide)
  cases xs with
  | nil =>
    cases ys with
    | nil => rfl
    | cons b ys => exact absurd same (never b ys (plainY b List.mem_cons_self))
  | cons a xs =>
    cases ys with
    | nil => exact absurd same.symm (never a xs (plainX a List.mem_cons_self))
    | cons b ys =>
      have texts : a.toList ++ continued xs = b.toList ++ continued ys :=
        (closed_foldl xs a).symm.trans (same.trans (closed_foldl ys b))
      obtain ⟨rfl,after⟩ := atom_unique (plainX a List.mem_cons_self).unbroken (plainY b List.mem_cons_self).unbroken texts
      exact congrArg (a :: ·) (continued_unique xs ys (fun p member => plainX p (List.mem_cons_of_mem a member))
        (fun p member => plainY p (List.mem_cons_of_mem a member)) after)

/-- A supported ABI is told from its fingerprint. -/
theorem fingerprintText_unique (abi other : PhysicalAbi) (supported : abi.Supported) (supported' : other.Supported)
    (same : abi.fingerprintText = other.fingerprintText) : abi = other := by
  have letters := congrArg String.toList same
  simp only [PhysicalAbi.fingerprintText,supported.platform,supported'.platform,String.toList_append,
    List.append_assoc,List.append_cancel_left_eq] at letters
  have receiver : abi.memberReceiver = other.memberReceiver := by
    cases left : abi.memberReceiver <;> cases right : other.memberReceiver
    · rfl
    · simp [left,right,receiverText] at letters
    · simp [left,right,receiverText] at letters
    · rfl
  simp only [receiver,List.append_cancel_left_eq] at letters
  have unbroken : ∀ abi : PhysicalAbi, abi.Supported → ∀ c ∈ abi.returns.toList, ends c = false := by
    intro abi supported
    rcases supported.returns with void | known
    · simp only [void]
      have plain : Plain "void" := plain_of_all (by simp) rfl
      exact plain.unbroken
    · exact (plain_of_valid known).unbroken
  obtain ⟨returns,after⟩ := word_unique abi.returns.toList other.returns.toList '(' '(' _ _
    (unbroken abi supported) (unbroken other supported') rfl rfl letters
  have lists := join_unique abi.parameters other.parameters (fun p member => plain_of_valid (supported.parameters p member))
    (fun p member => plain_of_valid (supported'.parameters p member)) (by simpa using after)
  cases abi
  cases other
  simp only [PhysicalAbi.mk.injEq]
  exact ⟨supported.platform.trans supported'.platform.symm,receiver,lists,String.toList_injective returns⟩

end Fingerprints

section Agreement

/-- The two sides on one signature. -/
structure Agree (s : AbiSignature) : Prop where
  accepted : ((∃ bytes, s.physical.stackBytes = .ok bytes) ∧ ∃ text, s.physical.fingerprint = .ok text) ↔
    ∃ info, createInfo s = .ok info
  same : ∀ info, createInfo s = .ok info →
    s.physical.stackBytes = .ok info.stackBytes ∧ s.physical.fingerprint = .ok info.fingerprint
  enough : ∀ info, createInfo s = .ok info → s.physical.spillBytes ≤ info.stackBytes ∧ 16 ∣ info.stackBytes

theorem agree_of_projected (s : AbiSignature) (fixed : s.varargs = false)
    (projects : ∀ a ∈ s.returns :: s.parameters, a.ProjectsBool) : Agree s := by
  have created := fun info => createInfo_iff s info fixed projects
  constructor
  · constructor
    · rintro ⟨⟨bytes,stack⟩,-⟩
      exact ⟨_,(created _).mpr ⟨((stackBytes_iff _ _).mp stack).1,rfl⟩⟩
    · rintro ⟨info,done⟩
      have supported := ((created info).mp done).1
      exact ⟨⟨_,(stackBytes_iff _ _).mpr ⟨supported,rfl⟩⟩,⟨_,(fingerprint_iff _ _).mpr ⟨supported,rfl⟩⟩⟩
  · intro info done
    obtain ⟨supported,rfl⟩ := (created info).mp done
    exact ⟨(stackBytes_iff _ _).mpr ⟨supported,rfl⟩,(fingerprint_iff _ _).mpr ⟨supported,rfl⟩⟩
  · intro info done
    obtain ⟨supported,rfl⟩ := (created info).mp done
    exact ⟨le_copied _,copied_aligned _⟩

/-- Host and shim agree on every physical ABI, and compare what tells one ABI from another. -/
theorem host_and_shim_agree (s : AbiSignature) (fixed : s.varargs = false)
    (projects : ∀ a ∈ s.returns :: s.parameters, a.ProjectsBool) :
    Agree s ∧ ∀ abi other : PhysicalAbi, ∀ text, abi.fingerprint = .ok text → other.fingerprint = .ok text → abi = other := by
  refine ⟨agree_of_projected s fixed projects,fun abi other text left right => ?_⟩
  obtain ⟨supported,rfl⟩ := (fingerprint_iff abi text).mp left
  obtain ⟨supported',same⟩ := (fingerprint_iff other _).mp right
  exact fingerprintText_unique abi other supported supported' same

theorem member_bool_agrees :
    let s : AbiSignature := ⟨Platform,true,⟨"void","void"⟩,[⟨"u8","bool"⟩,⟨"f32","number"⟩],false⟩
    createInfo s = .ok ⟨"linux-x86_64-sysv:entity:void(u8,f32)",128⟩ ∧ Agree s := by
  refine ⟨by decide,(host_and_shim_agree _ rfl ?_).1⟩
  simp [AbiAtom.ProjectsBool]

end Agreement

end S2Script.EngineAbi
