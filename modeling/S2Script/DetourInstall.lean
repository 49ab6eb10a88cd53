import S2Script.DetourRelocation

/-! Installing a detour: where control goes from the target and from the trampoline page
afterwards. A branch of the stolen prologue back into the stolen bytes keeps its address, and
lands in the patch. -/
namespace S2Script.Detours

open CodeMemory

/-- The patch length of a tier. -/
def jumpLength (near : Bool) : Nat := if near then kJmpRel32 else kJmpAbs

/-- Where a jump of `WriteRelJmp` or `WriteAbsJmp` goes when it is executed. -/
def jumpFrom (memory : Memory) (a : Address) : Option Address :=
  let code := view memory a
  if code 0 = 0xE9 then some (a + BitVec.ofNat 64 5 + (word32 (advance code 1)).signExtend 64)
  else if code 0 = 0xFF ∧ code 1 = 0x25 then
    some (word64 (view memory (a + BitVec.ofNat 64 6 + (word32 (advance code 2)).signExtend 64)))
  else none

/-- Control at an address reaches another one by jumps alone. -/
inductive Leads (memory : Memory) : Address → Address → Prop where
  | here (a : Address) : Leads memory a a
  | jump {a b c : Address} : jumpFrom memory a = some b → Leads memory b c → Leads memory a c

/-- A destination of a jump executed from the trampoline: of a relocated branch or of the jump back. -/
def TrampolineJump (decode : Decoder) (memory : Memory) (page : Address) (stolen : Nat) (dest : Address) : Prop :=
  (∃ o < stolen, Starts decode (view memory page) o ∧
    (decode (view memory (page + BitVec.ofNat 64 o))).relative = true ∧
    dest = branchTarget (page + BitVec.ofNat 64 o) (decode (view memory (page + BitVec.ofNat 64 o)))) ∨
  jumpFrom memory (page + BitVec.ofNat 64 stolen) = some dest

/-- The kernel maps only what is not mapped. -/
structure Os.Fresh (os : Os) (mapped : Address → Prop) : Prop where
  fixed : ∀ a p, os.mapFixed a = .mapped p → ∀ i < os.pageSize, ¬ mapped (p + BitVec.ofNat 64 i)
  hint : ∀ a p, os.mapHint a = some p → ∀ i < os.pageSize, ¬ mapped (p + BitVec.ofNat 64 i)
  anywhere : ∀ p, os.mapAnywhere = some p → ∀ i < os.pageSize, ¬ mapped (p + BitVec.ofNat 64 i)

/-- The first place at least `minBytes` in where an instruction starts. -/
def FirstBoundary (decode : Decoder) (code : Code) (minBytes n : Nat) : Prop :=
  Starts decode code n ∧ minBytes ≤ n ∧ ∀ m, Starts decode code m → minBytes ≤ m → n ≤ m

/-- No relative branch of the instructions that `minBytes` bytes reach into goes back among them. -/
def NoInnerBranch (decode : Decoder) (code : Code) (minBytes : Nat) : Prop :=
  ∀ n, FirstBoundary decode code minBytes n → ∀ o < n, Starts decode code o →
    (decode (advance code o)).relative = true →
      ¬ Within 0 n (branchTarget (BitVec.ofNat 64 o) (decode (advance code o)))

section Allocation

variable {os : Os} {mapped : Address → Prop}

theorem tryMapAt_fresh (fresh : os.Fresh mapped) {latched : Bool} {a p : Address}
    (made : (tryMapAt os latched a).1 = some p) : ∀ i < os.pageSize, ¬ mapped (p + BitVec.ofNat 64 i) := by
  simp only [tryMapAt] at made
  split at made
  · exact fresh.hint a p made
  · split at made
    · rename_i found
      split at made
      · cases made
        exact fresh.fixed a p found
      · cases made
    · cases made
    · cases made

/-- A page from `AllocNear` is fresh and within reach. -/
theorem probeCandidates_spec (fresh : os.Fresh mapped) {target page : Address} {cands : List Address} :
    ∀ {latched : Bool}, (probeCandidates os target latched cands).1 = some page →
      (∀ i < os.pageSize, ¬ mapped (page + BitVec.ofNat 64 i)) ∧
        -kReach < (page - target).toInt ∧ (page - target).toInt < kReach := by
  induction cands with
  | nil =>
    intro latched made
    cases made
  | cons cand rest ih =>
    intro latched made
    simp only [probeCandidates] at made
    split at made
    · exact ih made
    · rename_i p latched' tried
      split at made
      · rename_i reach
        cases made
        exact ⟨tryMapAt_fresh fresh (by rw [tried]),reach⟩
      · cases made

theorem allocNear_spec (fresh : os.Fresh mapped) {p : Process} {target page : Address}
    (made : (allocNear os p target).1 = some page) :
    (∀ i < os.pageSize, ¬ mapped (page + BitVec.ofNat 64 i)) ∧
      -kReach < (page - target).toInt ∧ (page - target).toInt < kReach := by
  simp only [allocNear] at made
  split at made
  · cases made
  · exact probeCandidates_spec fresh made

end Allocation

section Cases

variable {decode : Decoder} {os : Os} {p : Process} {target handler : Address} {given : Bool}
  {isExec : Option (Address → Bool)}

/-- What `Install` has before it touches anything: a page of one of the tiers and a body for it. -/
structure Prepared (decode : Decoder) (os : Os) (p : Process) (target : Address)
    (isExec : Option (Address → Bool)) (page : Address) (near : Bool) (built : Built) : Prop where
  tier : near = (allocNear os p target).1.isSome
  given : if near then (allocNear os p target).1 = some page else os.mapAnywhere = some page
  made : built = buildTrampolineBody decode isExec (view p.memory target) target page (jumpLength near)
  ok : built.ok = true
  room : kMaxSteal + kJmpAbs + kJmpAbs ≤ os.pageSize

theorem install_cases :
    let r := install decode os p target handler given isExec
    (r.1.memory = p.memory ∧ r.1.patches = p.patches ∧ r.2.ok = false) ∨
    ∃ page near built q, Prepared decode os p target isExec page near built ∧
      q.memory = p.memory ∧ q.patches = p.patches ∧ r = patch os q target handler page near built := by
  simp only [install]
  split
  · exact .inl ⟨rfl,rfl,rfl⟩
  · split
    · exact .inl ⟨rfl,rfl,rfl⟩
    · rename_i room
      split
      · rename_i page latched alloc
        split
        · rename_i ok
          have given : (allocNear os p target).1 = some page := by rw [alloc]
          have tier : true = (allocNear os p target).1.isSome := by rw [given]; rfl
          exact .inr ⟨page,true,_,{ p with noFixedNoReplace := latched },
            ⟨tier,given,by simp only [jumpLength,if_true],ok,by omega⟩,rfl,rfl,rfl⟩
        · exact .inl ⟨rfl,rfl,rfl⟩
      · rename_i latched alloc
        split
        · exact .inl ⟨rfl,rfl,rfl⟩
        · rename_i page anywhere
          split
          · rename_i ok
            have none : (allocNear os p target).1 = none := by rw [alloc]
            have tier : false = (allocNear os p target).1.isSome := by rw [none]; rfl
            exact .inr ⟨page,false,_,{ p with noFixedNoReplace := latched },
              ⟨tier,anywhere,by simp only [jumpLength]; rfl,ok,by omega⟩,rfl,rfl,rfl⟩
          · exact .inl ⟨rfl,rfl,rfl⟩

/-- An `Install` that got a near page and a body for it. -/
theorem install_near {page : Address} {latched : Bool} {built : Built} (nonnull : target ≠ 0 ∧ handler ≠ 0)
    (room : kMaxSteal + kJmpAbs + kJmpAbs ≤ os.pageSize) (alloc : allocNear os p target = (some page,latched))
    (made : buildTrampolineBody decode isExec (view p.memory target) target page kJmpRel32 = built)
    (ok : built.ok = true) :
    install decode os p target handler true isExec =
      patch os { p with noFixedNoReplace := latched } target handler page true built := by
  have given : ¬ (target = 0 ∨ handler = 0 ∨ (!true) = true) := by
    rintro (zero | zero | none)
    · exact nonnull.1 zero
    · exact nonnull.2 zero
    · cases none
  simp only [install,if_neg given,if_neg (Nat.not_lt.mpr room),alloc,made,ok,if_true]

/-- The bytes over a patched target. -/
def patchBytes (jump : List UInt8) (steal : Nat) : List UInt8 :=
  jump ++ List.replicate (steal - jump.length) 0x90

theorem patch_cases {page : Address} {near : Bool} {built : Built} :
    let r := patch os p target handler page near built
    (r.1.memory = layOut p.memory page target handler built ∧ r.1.patches = p.patches ∧ r.2.ok = false ∧
      (os.protect = true → patchJump target handler page near built.emitted = none)) ∨
    ∃ jump, os.protect = true ∧ patchJump target handler page near built.emitted = some jump ∧
      r.1.memory = write (layOut p.memory page target handler built) target (patchBytes jump built.steal) ∧
      r.1.patches = p.patches ++
        [⟨target,slice (view (layOut p.memory page target handler built) target) built.steal,page,os.pageSize⟩] ∧
      r.2 = ⟨true,none,built.steal,near,some page⟩ := by
  simp only [patch]
  split
  · rename_i protect
    exact .inl ⟨rfl,rfl,rfl,fun succeeds => by simp [succeeds] at protect⟩
  · rename_i protect
    split
    · rename_i none
      exact .inl ⟨rfl,rfl,rfl,fun _ => none⟩
    · rename_i jump made
      exact .inr ⟨jump,by simpa using protect,made,rfl,rfl,rfl⟩

end Cases

section Page

variable {decode : Decoder} {os : Os} {p : Process} {target handler page : Address} {near : Bool} {built : Built}
  {isExec : Option (Address → Bool)} {mapped : Address → Prop}

/-- The trampoline page from its start. -/
def pageBytes (built : Built) (target handler : Address) : List UInt8 :=
  built.out ++ absJmp (target + BitVec.ofNat 64 built.steal) ++ absJmp handler

@[simp] theorem absJmp_length (dest : Address) : (absJmp dest).length = kJmpAbs := rfl

theorem layOut_eq {memory : Memory} (emitted : built.out.length = built.emitted) (cap : built.emitted ≤ kMaxSteal) :
    layOut memory page target handler built = write memory page (pageBytes built target handler) := by
  have cap' : built.emitted ≤ 32 := cap
  simp only [layOut,pageBytes]
  rw [← emitted] at cap' ⊢
  rw [write_append (by simp only [absJmp_length,kJmpAbs]; omega)]
  have length : built.out.length + kJmpAbs = (built.out ++ absJmp (target + BitVec.ofNat 64 built.steal)).length := by
    simp only [List.length_append,absJmp_length]
  rw [length,write_append (by simp only [List.length_append,absJmp_length,kJmpAbs]; omega)]

theorem pageBytes_length (emitted : built.out.length = built.emitted) :
    (pageBytes built target handler).length = built.emitted + kJmpAbs + kJmpAbs := by
  simp only [pageBytes,List.length_append,absJmp_length,emitted]

theorem Prepared.fresh (prepared : Prepared decode os p target isExec page near built) (fresh : os.Fresh mapped) :
    ∀ i < os.pageSize, ¬ mapped (page + BitVec.ofNat 64 i) := by
  have given := prepared.given
  cases near with
  | true => exact (allocNear_spec fresh (by simpa using given)).1
  | false => exact fresh.anywhere page (by simpa using given)

/-- Writing the page touches nothing that was mapped. -/
theorem layOut_keeps (reports : Reports decode) (prepared : Prepared decode os p target isExec page near built)
    (fresh : os.Fresh mapped) (memory : Memory) {a : Address} (known : mapped a) :
    layOut memory page target handler built a = memory a := by
  obtain ⟨_,progress⟩ := built_progress reports prepared.made prepared.ok
  have emitted : built.out.length = built.emitted := progress.length.trans progress.emitted.symm
  have cap : built.emitted ≤ kMaxSteal := progress.emitted ▸ progress.cap
  rw [layOut_eq emitted cap]
  apply write_outside
  intro inside
  obtain ⟨i,lt,rfl⟩ := inside.offset
  rw [pageBytes_length emitted] at lt
  have room := prepared.room
  exact prepared.fresh fresh i (by omega) known

end Page

section Jumps

variable {memory : Memory} {a dest : Address}

theorem jumpFrom_absJmp (written : ∀ i (h : i < (absJmp dest).length), memory (a + BitVec.ofNat 64 i) = (absJmp dest)[i]) :
    jumpFrom memory a = some dest := by
  have first : view memory a 0 = 0xFF := written 0 (by simp [kJmpAbs])
  have second : view memory a 1 = 0x25 := written 1 (by simp [kJmpAbs])
  have zero : word32 (advance (view memory a) 2) = 0 := by
    apply word32_of_bytes
    intro i h
    rw [bytes32_length] at h
    match i,h with
    | 0,_ => exact written 2 (by simp [kJmpAbs])
    | 1,_ => exact written 3 (by simp [kJmpAbs])
    | 2,_ => exact written 4 (by simp [kJmpAbs])
    | 3,_ => exact written 5 (by simp [kJmpAbs])
  have next : a + BitVec.ofNat 64 6 + (0 : BitVec 32).signExtend 64 = a + BitVec.ofNat 64 6 := by simp
  have quad : word64 (view memory (a + BitVec.ofNat 64 6)) = dest := by
    apply word64_of_bytes
    intro i h
    have bound : i < 8 := by simpa using h
    have found := written (6 + i) (by rw [absJmp_length,kJmpAbs]; omega)
    rw [← view_advance]
    simp only [advance,view]
    rw [found]
    simp only [absJmp]
    rw [List.getElem_append_right (by simp)]
    simp
  simp only [jumpFrom,first,second,zero,next,quad]
  rfl

theorem jumpFrom_relJmp {jump : List UInt8} (made : relJmp a dest = some jump)
    (written : ∀ i (h : i < jump.length), memory (a + BitVec.ofNat 64 i) = jump[i]) :
    jumpFrom memory a = some dest := by
  simp only [relJmp] at made
  split at made
  · rename_i fits
    cases made
    have first : view memory a 0 = 0xE9 := written 0 (by simp)
    have rel : word32 (advance (view memory a) 1) = (dest - (a + BitVec.ofNat 64 kJmpRel32)).setWidth 32 := by
      apply word32_of_bytes
      intro i h
      rw [bytes32_length] at h
      have found := written (1 + i) (by simp only [List.length_cons,bytes32_length]; omega)
      simp only [advance,view]
      rw [found]
      simp only [Nat.add_comm 1 i,List.getElem_cons_succ]
    simp only [jumpFrom,first,if_true,rel,signExtend_setWidth fits]
    congr 1
    rw [BitVec.add_comm]
    exact BitVec.sub_add_cancel ..
  · cases made

/-- The island of a page that `AllocNear` accepted is within reach of the near jump. -/
theorem relJmp_reaches {target page : Address} {emitted : Nat} (cap : emitted ≤ kMaxSteal)
    (above : -kReach < (page - target).toInt) (below : (page - target).toInt < kReach) :
    ∃ jump, relJmp target (page + BitVec.ofNat 64 (emitted + kJmpAbs)) = some jump := by
  have cap' : emitted ≤ 32 := cap
  have fits : fits32 (page + BitVec.ofNat 64 (emitted + kJmpAbs) - (target + BitVec.ofNat 64 kJmpRel32)) = true := by
    simp only [fits32,kReach,kJmpAbs,kJmpRel32,BitVec.toInt_eq_toNat_cond,BitVec.toNat_sub,BitVec.toNat_add,
      BitVec.toNat_ofNat] at *
    simp only [decide_eq_true_eq]
    split at above <;> split <;> omega
  exact ⟨_,by simp only [relJmp,fits,if_true]; rfl⟩

theorem patchJump_length {target handler page : Address} {near : Bool} {emitted : Nat} {jump : List UInt8}
    (made : patchJump target handler page near emitted = some jump) : jump.length = jumpLength near := by
  cases near with
  | true =>
    simp only [patchJump,if_true,relJmp] at made
    split at made
    · cases made
      rfl
    · cases made
  | false =>
    cases made
    rfl

/-- Once the page is there, a jump to it can be written. -/
theorem Prepared.reaches {decode : Decoder} {os : Os} {p : Process} {target handler page : Address} {near : Bool}
    {built : Built} {isExec : Option (Address → Bool)}
    (prepared : Prepared decode os p target isExec page near built) (cap : built.emitted ≤ kMaxSteal) :
    ∃ jump, patchJump target handler page near built.emitted = some jump := by
  have anything : os.Fresh fun _ => False := ⟨fun _ _ _ _ _ => id,fun _ _ _ _ _ => id,fun _ _ _ _ => id⟩
  have given := prepared.given
  cases near with
  | true =>
    obtain ⟨_,above,below⟩ := allocNear_spec anything (by simpa using given)
    exact relJmp_reaches cap above below
  | false => exact ⟨_,rfl⟩

end Jumps

section Trampoline

variable {decode : Decoder} {code code' : Code}

/-- Code whose instructions below `n` are as long has its instructions at the same places. -/
theorem starts_iff {n : Nat} (same : ∀ o, Starts decode code o → o < n →
    (decode (advance code' o)).len = (decode (advance code o)).len) {o : Nat} (lt : o < n) :
    Starts decode code' o ↔ Starts decode code o := by
  have step : ∀ k, boundary decode code' k = boundary decode code k ∨
      (n ≤ boundary decode code' k ∧ n ≤ boundary decode code k) := by
    intro k
    induction k with
    | zero => exact .inl rfl
    | succ k ih =>
      rcases ih with equal | ⟨far,far'⟩
      · by_cases inside : boundary decode code k < n
        · have length := same _ ⟨k,rfl⟩ inside
          exact .inl (by simp only [boundary,equal,length])
        · exact .inr ⟨by simp only [boundary]; omega,by simp only [boundary]; omega⟩
      · exact .inr ⟨by simp only [boundary]; omega,by simp only [boundary]; omega⟩
  constructor
  · rintro ⟨k,rfl⟩
    rcases step k with equal | ⟨far,_⟩
    · exact ⟨k,equal.symm⟩
    · omega
  · rintro ⟨k,rfl⟩
    rcases step k with equal | ⟨_,far⟩
    · exact ⟨k,equal⟩
    · omega

end Trampoline

section Installed

variable {decode : Decoder} {os : Os} {p : Process} {target handler page : Address} {near : Bool} {built : Built}
  {isExec : Option (Address → Bool)} {mapped : Address → Prop}

/-- The memory of a process after a detour was made: the page, and the jump over the target. -/
structure Made (memory : Memory) (target handler page : Address) (near : Bool) (built : Built) : Prop where
  body : ∀ i (h : i < built.out.length), memory (page + BitVec.ofNat 64 i) = built.out[i]
  back : jumpFrom memory (page + BitVec.ofNat 64 built.steal) = some (target + BitVec.ofNat 64 built.steal)
  reaches : Leads memory target handler

theorem patch_made (reports : Reports decode) (prepared : Prepared decode os p target isExec page near built)
    (fresh : os.Fresh mapped) {jump : List UInt8} (made : patchJump target handler page near built.emitted = some jump)
    (known : ∀ i < built.steal, mapped (target + BitVec.ofNat 64 i)) :
    Made (write (layOut p.memory page target handler built) target (patchBytes jump built.steal))
      target handler page near built := by
  obtain ⟨enough,progress⟩ := built_progress reports prepared.made prepared.ok
  have emitted : built.out.length = built.emitted := progress.length.trans progress.emitted.symm
  have cap : built.emitted ≤ 32 := progress.emitted ▸ progress.cap
  have steal := progress.emitted
  have room : 60 ≤ os.pageSize := prepared.room
  have long := patchJump_length made
  have patched : (patchBytes jump built.steal).length = built.steal := by
    simp only [patchBytes,List.length_append,List.length_replicate]
    omega
  rw [layOut_eq emitted cap]
  generalize whole : write (write p.memory page (pageBytes built target handler)) target
    (patchBytes jump built.steal) = memory
  -- the patch lies over mapped bytes, the page over fresh ones
  have onPage : ∀ i (h : i < (pageBytes built target handler).length),
      memory (page + BitVec.ofNat 64 i) = (pageBytes built target handler)[i] := by
    intro i h
    have bound := h
    rw [pageBytes_length emitted] at bound
    simp only [kJmpAbs] at bound
    rw [← whole,write_outside]
    · exact view_write h (by omega)
    · intro inside
      obtain ⟨j,lt,same⟩ := inside.offset
      rw [patched] at lt
      apply prepared.fresh fresh i (by omega)
      rw [same]
      exact known j lt
  have onTarget : ∀ i (h : i < (patchBytes jump built.steal).length),
      memory (target + BitVec.ofNat 64 i) = (patchBytes jump built.steal)[i] := by
    intro i h
    rw [← whole]
    exact view_write h (by omega)
  have island : jumpFrom memory (page + BitVec.ofNat 64 (built.emitted + kJmpAbs)) = some handler := by
    apply jumpFrom_absJmp
    intro i h
    rw [absJmp_length,kJmpAbs] at h
    have found := onPage (built.emitted + kJmpAbs + i) (by rw [pageBytes_length emitted]; simp only [kJmpAbs]; omega)
    rw [BitVec.add_assoc,← BitVec.ofNat_add,found]
    simp only [pageBytes]
    rw [List.getElem_append_right (by simp only [List.length_append,absJmp_length,kJmpAbs]; omega)]
    congr 1
    simp only [List.length_append,absJmp_length]
    omega
  refine ⟨?_,?_,?_⟩
  · intro i h
    rw [onPage i (by rw [pageBytes_length emitted]; omega)]
    simp only [pageBytes,List.append_assoc]
    exact List.getElem_append_left h
  · apply jumpFrom_absJmp
    intro i h
    rw [absJmp_length,kJmpAbs] at h
    have found := onPage (built.steal + i) (by rw [pageBytes_length emitted]; simp only [kJmpAbs]; omega)
    rw [BitVec.add_assoc,← BitVec.ofNat_add,found]
    simp only [pageBytes]
    rw [List.getElem_append_left (by simp only [List.length_append,absJmp_length,kJmpAbs]; omega),
      List.getElem_append_right (by omega)]
    congr 1
    omega
  · have onJump : ∀ i (h : i < jump.length), memory (target + BitVec.ofNat 64 i) = jump[i] := by
      intro i h
      rw [onTarget i (by simp only [patchBytes,List.length_append]; omega)]
      exact List.getElem_append_left h
    cases near with
    | true => exact .jump (jumpFrom_relJmp made onJump) (.jump island (.here handler))
    | false =>
      cases made
      exact .jump (jumpFrom_absJmp fun i h => onJump i h) (.here handler)

/-- The jumps of the trampoline are the stolen branches, with the addresses they had, and the jump back. -/
theorem trampolineJump_iff (reports : Reports decode) (prepared : Prepared decode os p target isExec page near built)
    {memory : Memory} (made : Made memory target handler page near built) {dest : Address} :
    TrampolineJump decode memory page built.steal dest ↔
      (∃ o < built.steal, Starts decode (view p.memory target) o ∧
        (decode (advance (view p.memory target) o)).relative = true ∧
        dest = branchTarget (target + BitVec.ofNat 64 o) (decode (advance (view p.memory target) o))) ∨
      dest = target + BitVec.ofNat 64 built.steal := by
  obtain ⟨_,progress⟩ := built_progress reports prepared.made prepared.ok
  have length := progress.length
  have meaning : ∀ o, Starts decode (view p.memory target) o → o < built.steal →
      SameMeaning (decode (advance (view p.memory target) o)) (decode (view memory (page + BitVec.ofNat 64 o)))
        (target + BitVec.ofNat 64 o) (page + BitVec.ofNat 64 o) := by
    intro o starts lt
    have ends := starts.next_le progress.starts lt
    apply Rebased.sameMeaning reports (progress.decoded o starts lt).1
    refine (progress.rebased o starts lt).congr fun i h => ?_
    have byte := made.body (o + i) (by omega)
    simp only [view,advance,ofList,List.getD_eq_getElem?_getD]
    rw [BitVec.add_assoc,← BitVec.ofNat_add,byte,List.getElem?_eq_getElem (by omega)]
    rfl
  have starts : ∀ {o}, o < built.steal →
      (Starts decode (view memory page) o ↔ Starts decode (view p.memory target) o) := by
    intro o lt
    refine starts_iff (fun b begins below => ?_) lt
    have shape := (meaning b begins below).shape
    have length := congrArg Hde.len shape
    rw [view_advance]
    exact length
  constructor
  · rintro (⟨o,lt,begins,relative,rfl⟩ | back)
    · have begins' := (starts lt).mp begins
      have same := meaning o begins' lt
      have relative' : (decode (advance (view p.memory target) o)).relative = true :=
        (congrArg Hde.relative same.shape).symm.trans relative
      exact .inl ⟨o,lt,begins',relative',(same.branch relative').2⟩
    · rw [made.back] at back
      exact .inr (Option.some.inj back).symm
  · rintro (⟨o,lt,begins,relative,rfl⟩ | rfl)
    · have same := meaning o begins lt
      have relative' : (decode (view memory (page + BitVec.ofNat 64 o))).relative = true :=
        (congrArg Hde.relative same.shape).trans relative
      exact .inl ⟨o,lt,(starts lt).mpr begins,relative',(same.branch relative).2.symm⟩
    · exact .inr made.back

theorem Progress.firstBoundary {code : Code} {codeAddr outAddr : Address} {minBytes steal emitted : Nat}
    {out : List UInt8} {events : List Event} (enough : minBytes ≤ steal)
    (progress : Progress decode code codeAddr outAddr minBytes steal emitted out events) {n : Nat} :
    FirstBoundary decode code minBytes n ↔ n = steal := by
  constructor
  · rintro ⟨starts,far,least⟩
    rcases Nat.lt_trichotomy n steal with before | same | after
    · have := progress.short n starts before
      omega
    · exact same
    · have := least steal progress.starts enough
      omega
  · rintro rfl
    refine ⟨progress.starts,enough,fun m starts far => ?_⟩
    by_contra before
    have := progress.short m starts (by omega)
    omega

/-- Ranges do not move with their addresses. -/
theorem within_moved (target : Address) (n o : Nat) (hs : Hde) :
    Within target n (branchTarget (target + BitVec.ofNat 64 o) hs) ↔ Within 0 n (branchTarget (BitVec.ofNat 64 o) hs) := by
  have moved : branchTarget (target + BitVec.ofNat 64 o) hs - target = branchTarget (BitVec.ofNat 64 o) hs - 0 := by
    have zero : ∀ x : Address, x - 0 = x := BitVec.sub_zero
    simp only [branchTarget,BitVec.add_assoc,zero]
    rw [BitVec.add_comm]
    exact BitVec.add_sub_cancel ..
  simp only [Within,moved]

end Installed

/-- A failed `Install` changes no mapped byte and no patch. After a successful one the target leads to
the handler, and the trampoline stays out of the patched bytes exactly when no stolen branch goes
back into them. -/
theorem install_avoids_patch (decode : Decoder) (reports : Reports decode) (os : Os) (mapped : Address → Prop)
    (fresh : os.Fresh mapped) (p : Process) (target handler : Address) (given : Bool)
    (isExec : Option (Address → Bool)) :
    let r := install decode os p target handler given isExec
    (r.2.ok = false → (∀ a, mapped a → r.1.memory a = p.memory a) ∧ r.1.patches = p.patches) ∧
    (r.2.ok = true → (∀ i < r.2.stolen, mapped (target + BitVec.ofNat 64 i)) →
      ∃ page, r.2.origTrampoline = some page ∧ Leads r.1.memory target handler ∧
        ((∀ dest, TrampolineJump decode r.1.memory page r.2.stolen dest → ¬ Within target r.2.stolen dest) ↔
          NoInnerBranch decode (view p.memory target) (jumpLength (allocNear os p target).1.isSome))) := by
  intro r
  rcases @install_cases decode os p target handler given isExec with ⟨memory,patches,failed⟩ | ⟨page,near,built,q,prepared,memory,patches,made⟩
  · refine ⟨fun _ => ⟨fun a _ => congrFun memory a,patches⟩,fun ok => ?_⟩
    rw [failed] at ok
    cases ok
  · change r = _ at made
    rw [made]
    rcases @patch_cases os q target handler page near built with ⟨memory',patches',failed,_⟩ | ⟨jump,protect,jumps,memory',patches',result⟩
    · refine ⟨fun _ => ⟨fun a known => ?_,patches'.trans patches⟩,fun ok => ?_⟩
      · rw [memory',memory]
        exact layOut_keeps reports prepared fresh p.memory known
      · rw [failed] at ok
        cases ok
    · rw [memory',result,memory]
      refine ⟨nofun,fun _ known => ?_⟩
      have page := patch_made reports prepared fresh jumps known
      obtain ⟨enough,progress⟩ := built_progress reports prepared.made prepared.ok
      have first := fun n => progress.firstBoundary (n := n) (by simpa using enough)
      refine ⟨_,rfl,page.reaches,?_⟩
      rw [← prepared.tier]
      simp only [trampolineJump_iff reports prepared page,NoInnerBranch,first]
      constructor
      · rintro avoids _ rfl o lt starts relative inside
        exact avoids _ (.inl ⟨o,lt,starts,relative,rfl⟩) ((within_moved ..).mpr inside)
      · rintro free _ (⟨o,lt,starts,relative,rfl⟩ | rfl) inside
        · exact free _ rfl o lt starts relative ((within_moved ..).mp inside)
        · have cap : built.steal ≤ 32 := progress.cap
          rw [within_offset (by omega)] at inside
          omega

section Loop

/-- One page is free near the target. -/
def oneFreePage : Os where
  pageSize := 4096
  mapFixed a := if a = 0x110000 then .mapped a else .refused
  mapHint _ := none
  mapAnywhere := none
  protect := true

/-- `push rax` and a `je` with the given displacement at 0x10000. -/
def prologueProcess (rel : List UInt8) : Process where
  memory := write (fun _ => 0x90) 0x10000 ([0x50,0x0F,0x84] ++ rel)
  patches := []
  noFixedNoReplace := false
  forceFarTier := false

def inText (a : Address) : Prop := Within 0x10000 0x1000 a

theorem oneFreePage_fresh : oneFreePage.Fresh inText where
  fixed a p made i lt known := by
    simp only [oneFreePage] at made lt
    split at made
    · rename_i here
      cases made
      subst here
      have page : (0x110000 : Address).toNat = 0x110000 := rfl
      have text : (0x10000 : Address).toNat = 0x10000 := rfl
      simp only [inText,Within,BitVec.toNat_sub,BitVec.toNat_add,BitVec.toNat_ofNat,page,text] at known
      omega
    · cases made
  hint a p made := by cases made
  anywhere p made := by cases made

theorem prologue_known {i : Nat} (lt : i < 7) : inText (0x10000 + BitVec.ofNat 64 i) := by
  simp only [inText]
  rw [within_offset (by omega)]
  omega

theorem prologue_installs {rel : List UInt8} {built : Built} (ok : built.ok = true) (steal : built.steal = 7)
    (emitted : built.emitted = 7)
    (made : built = buildTrampolineBody prologueDecoder (some fun _ => true) (view (prologueProcess rel).memory 0x10000)
      0x10000 0x110000 kJmpRel32) :
    let r := install prologueDecoder oneFreePage (prologueProcess rel) 0x10000 0x30000 true (some fun _ => true)
    Prepared prologueDecoder oneFreePage (prologueProcess rel) 0x10000 (some fun _ => true) 0x110000 true built ∧
      Made r.1.memory 0x10000 0x30000 0x110000 true built ∧ r.2 = ⟨true,none,7,true,some 0x110000⟩ := by
  have alloc : allocNear oneFreePage (prologueProcess rel) 0x10000 = (some 0x110000,false) := rfl
  have jump : patchJump 0x10000 0x30000 0x110000 true built.emitted = some [0xE9,0x10,0,0x10,0] := by
    rw [emitted]
    decide
  have prepared : Prepared prologueDecoder oneFreePage (prologueProcess rel) 0x10000 (some fun _ => true) 0x110000
      true built := ⟨by rw [alloc]; rfl,by rw [alloc]; rfl,made,ok,by decide⟩
  have page := patch_made prologueDecoder_reports prepared oneFreePage_fresh jump
    (fun i lt => prologue_known (steal ▸ lt))
  intro r
  have run : r = patch oneFreePage (prologueProcess rel) 0x10000 0x30000 0x110000 true built :=
    install_near (by decide) (by decide) alloc made.symm ok
  rw [run]
  simp only [patch,jump,steal] at page ⊢
  exact ⟨prepared,page,rfl⟩

/-- `push rax; je` back to the `push`: the trampoline's branch goes to the patched entry. -/
theorem loop_lands_in_patch :
    let r := install prologueDecoder oneFreePage (prologueProcess [0xF9,0xFF,0xFF,0xFF]) 0x10000 0x30000 true
      (some fun _ => true)
    Reports prologueDecoder ∧ oneFreePage.Fresh inText ∧ oneFreePage.protect = true ∧
    r.2 = ⟨true,none,7,true,some 0x110000⟩ ∧
    TrampolineJump prologueDecoder r.1.memory 0x110000 7 0x10000 ∧ Within 0x10000 7 0x10000 := by
  have run : ∃ events, ⟨true,none,7,7,[0x50,0x0F,0x84,0xF9,0xFF,0xEF,0xFF],events⟩ =
      buildTrampolineBody prologueDecoder (some fun _ => true)
        (view (prologueProcess [0xF9,0xFF,0xFF,0xFF]).memory 0x10000) 0x10000 0x110000 kJmpRel32 := by
    rw [buildTrampolineBody,buildLoop_next (by decide) rfl,buildLoop_next (by decide) rfl,buildLoop_done (by decide)]
    exact ⟨_,rfl⟩
  obtain ⟨events,run⟩ := run
  obtain ⟨prepared,made,result⟩ := prologue_installs rfl rfl rfl run
  refine ⟨prologueDecoder_reports,oneFreePage_fresh,rfl,result,?_,by decide⟩
  exact (trampolineJump_iff prologueDecoder_reports prepared made).mpr (.inl ⟨1,show 1 < 7 by decide,⟨1,rfl⟩,rfl,by decide⟩)

/-- `push rax; je` forwards: the trampoline stays out of the patch. -/
theorem forward_avoids_patch :
    let r := install prologueDecoder oneFreePage (prologueProcess [0x20,0,0,0]) 0x10000 0x30000 true
      (some fun _ => true)
    r.2.ok = true ∧ Leads r.1.memory 0x10000 0x30000 ∧
    ((∀ dest, TrampolineJump prologueDecoder r.1.memory 0x110000 r.2.stolen dest → ¬ Within 0x10000 r.2.stolen dest) ↔
      NoInnerBranch prologueDecoder (view (prologueProcess [0x20,0,0,0]).memory 0x10000) 5) := by
  have run : ∃ events, ⟨true,none,7,7,[0x50,0x0F,0x84,0x20,0,0xF0,0xFF],events⟩ =
      buildTrampolineBody prologueDecoder (some fun _ => true)
        (view (prologueProcess [0x20,0,0,0]).memory 0x10000) 0x10000 0x110000 kJmpRel32 := by
    rw [buildTrampolineBody,buildLoop_next (by decide) rfl,buildLoop_next (by decide) rfl,buildLoop_done (by decide)]
    exact ⟨_,rfl⟩
  obtain ⟨events,run⟩ := run
  obtain ⟨_,_,result⟩ := prologue_installs rfl rfl rfl run
  obtain ⟨page,same,reaches,avoids⟩ := (install_avoids_patch prologueDecoder prologueDecoder_reports oneFreePage inText
    oneFreePage_fresh (prologueProcess [0x20,0,0,0]) 0x10000 0x30000 true (some fun _ => true)).2
    (by rw [result]) fun i lt => prologue_known (by rwa [result] at lt)
  rw [result] at same
  cases same
  exact ⟨by rw [result],reaches,avoids⟩

end Loop

end S2Script.Detours
