import S2Script.Detours

/-! A relocated prologue means what the original meant: the same instructions, each relative
operand designating the address it designated before. -/
namespace S2Script.Detours

open CodeMemory

/-- The instruction apart from the values of its operands. -/
def Hde.shape (hs : Hde) : Hde := { hs with dispValue := 0, immValue := 0 }

/-- The bytes of a RIP-relative displacement. -/
def InOperand (hs : Hde) (i : Nat) : Prop :=
  ripRelative hs = true ∧ hs.len ≤ i + immBytes hs + 4 ∧ i + immBytes hs < hs.len

/-- The bytes of a rel32 branch. -/
def InBranch (hs : Hde) (i : Nat) : Prop :=
  hs.relative = true ∧ rel32 hs = true ∧ hs.len ≤ i + 4 ∧ i < hs.len

/-- The disassembler tells the truth: a displacement directly precedes the immediate bytes, a
branch immediate is last, and neither decides what the instruction is. -/
structure Reports (decode : Decoder) : Prop where
  displacement : ∀ code, (decode code).error = false → (decode code).disp32 = true →
    immBytes (decode code) + 4 ≤ (decode code).len →
      (decode code).dispValue = word32 (advance code ((decode code).len - immBytes (decode code) - 4))
  branch : ∀ code, (decode code).error = false → (decode code).relative = true →
    (decode code).imm32 = true → 4 ≤ (decode code).len ∧
      (decode code).immValue = word32 (advance code ((decode code).len - 4))
  shape : ∀ code code', (decode code).error = false →
    (∀ i < (decode code).len, ¬ InOperand (decode code) i → ¬ InBranch (decode code) i → code' i = code i) →
      (decode code').shape = (decode code).shape

/-- The address a RIP-relative operand of an instruction at `a` designates. -/
def ripTarget (a : Address) (hs : Hde) : Address := a + BitVec.ofNat 64 hs.len + hs.dispValue.signExtend 64

/-- The address a relative branch at `a` goes to. -/
def branchTarget (a : Address) (hs : Hde) : Address := a + BitVec.ofNat 64 hs.len + hs.immValue.signExtend 64

/-- The offset of the instruction after the first `k`. -/
def boundary (decode : Decoder) (code : Code) : Nat → Nat
  | 0 => 0
  | k + 1 => boundary decode code k + (decode (advance code (boundary decode code k))).len

/-- Whether an instruction of the straight-line code starts at an offset. -/
def Starts (decode : Decoder) (code : Code) (o : Nat) : Prop := ∃ k, boundary decode code k = o

/-- An instruction at its new address against the one it was made from. -/
structure SameMeaning (old new : Hde) (oldAddr newAddr : Address) : Prop where
  shape : new.shape = old.shape
  operand : ripRelative old = true → ripTarget newAddr new = ripTarget oldAddr old
  branch : old.relative = true → rel32 old = true ∧ branchTarget newAddr new = branchTarget oldAddr old

/-- Output that is the input, instruction for instruction. -/
structure Relocated (decode : Decoder) (code : Code) (codeAddr : Address) (out : List UInt8)
    (outAddr : Address) : Prop where
  boundary : Starts decode code out.length
  inside : ∀ o, Starts decode code o → o < out.length →
    0 < (decode (advance code o)).len ∧ o + (decode (advance code o)).len ≤ out.length
  bytes : ∀ o, Starts decode code o → o < out.length → ∀ i < (decode (advance code o)).len,
    ¬ InOperand (decode (advance code o)) i → ¬ InBranch (decode (advance code o)) i →
      out[o + i]? = some (code (o + i))
  meaning : ∀ o, Starts decode code o → o < out.length →
    SameMeaning (decode (advance code o)) (decode (advance (ofList out) o))
      (codeAddr + BitVec.ofNat 64 o) (outAddr + BitVec.ofNat 64 o)

/-- Every decoded address was found executable over the longest instruction just before. -/
def Asked (exec : Address → Bool) (events : List Event) : Prop :=
  ∀ before a after, events = before ++ .decoded a :: after →
    exec a = true ∧ exec (a + BitVec.ofNat 64 (kMaxInsnLen - 1)) = true ∧
      ∃ earlier, before = earlier ++ [.probed a true,.probed (a + BitVec.ofNat 64 (kMaxInsnLen - 1)) true]

section Boundaries

variable {decode : Decoder} {code : Code}

theorem boundary_mono {k n : Nat} (le : k ≤ n) : boundary decode code k ≤ boundary decode code n := by
  induction le with
  | refl => exact Nat.le_refl _
  | step _ ih => exact Nat.le_trans ih (Nat.le_add_right _ _)

theorem starts_zero : Starts decode code 0 := ⟨0,rfl⟩

theorem Starts.next {o : Nat} (starts : Starts decode code o) :
    Starts decode code (o + (decode (advance code o)).len) := by
  obtain ⟨k,rfl⟩ := starts
  exact ⟨k + 1,rfl⟩

/-- No instruction starts within another. -/
theorem Starts.next_le {a b : Nat} (starts : Starts decode code a) (later : Starts decode code b) (lt : a < b) :
    a + (decode (advance code a)).len ≤ b := by
  obtain ⟨k,rfl⟩ := starts
  obtain ⟨n,rfl⟩ := later
  have order : k < n := by
    by_contra le
    have := @boundary_mono decode code _ _ (Nat.not_lt.mp le)
    omega
  exact @boundary_mono decode code _ _ order

end Boundaries

section Operands

theorem rebase_spec {old next : Address} {value : BitVec 32} {field : List UInt8}
    (made : rebase old next value = some field) :
    ∃ v, field = bytes32 v ∧ next + v.signExtend 64 = old + value.signExtend 64 := by
  simp only [rebase] at made
  split at made
  · rename_i fits
    cases made
    refine ⟨_,rfl,?_⟩
    rw [signExtend_setWidth fits,BitVec.add_comm,BitVec.sub_add_cancel]
  · cases made

/-- What one relocation left of a copied instruction: four bytes at `off` were replaced. -/
structure Replaced (src out : List UInt8) (off : Nat) (old next : Address) (value : BitVec 32) : Prop where
  length : out.length = src.length
  outside : ∀ i, i < off ∨ off + 4 ≤ i → out[i]? = src[i]?
  field : ∃ v, (∀ i (h : i < (bytes32 v).length), out[off + i]? = some (bytes32 v)[i]) ∧
    next + v.signExtend 64 = old + value.signExtend 64

theorem replaced_splice {src field : List UInt8} {off : Nat} {old next : Address} {value : BitVec 32}
    (room : off + 4 ≤ src.length) (made : rebase old next value = some field) :
    Replaced src (splice src off field) off old next value := by
  obtain ⟨v,rfl,same⟩ := rebase_spec made
  exact {
    length := splice_length (by simpa using room)
    outside := fun i outside => splice_outside (by simpa using room) (by simpa using outside)
    field := ⟨v,fun i h => splice_inside (by simpa using room) (by simpa using h),same⟩ }

theorem relocateOperand_spec {hs : Hde} {insnAddr dstAddr : Address} {src out : List UInt8}
    (length : src.length = hs.len) (made : relocateOperand hs insnAddr dstAddr src = .ok out) :
    (ripRelative hs = false ∧ out = src) ∨
    (ripRelative hs = true ∧ immBytes hs + 4 ≤ hs.len ∧ Replaced src out (hs.len - immBytes hs - 4)
      (insnAddr + BitVec.ofNat 64 hs.len) (dstAddr + BitVec.ofNat 64 hs.len) hs.dispValue) := by
  simp only [relocateOperand] at made
  split at made
  · rename_i rip
    split at made
    · cases made
    · rename_i room
      split at made
      · cases made
      · rename_i field based
        cases made
        exact .inr ⟨rip,by omega,replaced_splice (by omega) based⟩
  · rename_i rip
    cases made
    exact .inl ⟨by simpa using rip,rfl⟩

theorem relocateBranch_spec {hs : Hde} {insnAddr dstAddr : Address} {src out : List UInt8}
    (length : src.length = hs.len) (room : hs.relative = true → rel32 hs = true → 4 ≤ hs.len)
    (made : relocateBranch hs insnAddr dstAddr src = .ok out) :
    (hs.relative = false ∧ out = src) ∨
    (hs.relative = true ∧ rel32 hs = true ∧ Replaced src out (hs.len - 4)
      (insnAddr + BitVec.ofNat 64 hs.len) (dstAddr + BitVec.ofNat 64 hs.len) hs.immValue) := by
  simp only [relocateBranch] at made
  split at made
  · rename_i relative
    split at made
    · cases made
    · rename_i short
      have long : rel32 hs = true := by simpa using short
      have fits := room relative long
      split at made
      · cases made
      · rename_i field based
        cases made
        exact .inr ⟨relative,long,replaced_splice (by omega) based⟩
  · rename_i relative
    cases made
    exact .inl ⟨by simpa using relative,rfl⟩

/-- A copied instruction, byte for byte. -/
structure Rebased (hs : Hde) (old new : Code) (oldAddr newAddr : Address) : Prop where
  rest : ∀ i < hs.len, ¬ InOperand hs i → ¬ InBranch hs i → new i = old i
  operand : ripRelative hs = true → immBytes hs + 4 ≤ hs.len ∧
    newAddr + BitVec.ofNat 64 hs.len + (word32 (advance new (hs.len - immBytes hs - 4))).signExtend 64 =
      oldAddr + BitVec.ofNat 64 hs.len + hs.dispValue.signExtend 64
  branch : hs.relative = true → rel32 hs = true ∧ 4 ≤ hs.len ∧
    newAddr + BitVec.ofNat 64 hs.len + (word32 (advance new (hs.len - 4))).signExtend 64 =
      oldAddr + BitVec.ofNat 64 hs.len + hs.immValue.signExtend 64

theorem Rebased.congr {hs : Hde} {old new new' : Code} {oldAddr newAddr : Address}
    (rebased : Rebased hs old new oldAddr newAddr) (same : ∀ i < hs.len, new' i = new i) :
    Rebased hs old new' oldAddr newAddr where
  rest i h free free' := (same i h).trans (rebased.rest i h free free')
  operand rip := by
    obtain ⟨room,target⟩ := rebased.operand rip
    refine ⟨room,?_⟩
    rw [← target]
    congr 2
    exact word32_congr fun i h => same _ (by omega)
  branch relative := by
    obtain ⟨long,room,target⟩ := rebased.branch relative
    refine ⟨long,room,?_⟩
    rw [← target]
    congr 2
    exact word32_congr fun i h => same _ (by omega)

theorem ofList_eq {bytes : List UInt8} {i : Nat} {b : UInt8} (found : bytes[i]? = some b) : ofList bytes i = b := by
  simp only [ofList,List.getD_eq_getElem?_getD,found,Option.getD_some]

theorem Replaced.word {src out : List UInt8} {off : Nat} {old next : Address} {value : BitVec 32}
    (replaced : Replaced src out off old next value) :
    next + (word32 (advance (ofList out) off)).signExtend 64 = old + value.signExtend 64 := by
  obtain ⟨v,found,same⟩ := replaced.field
  have read : word32 (advance (ofList out) off) = v :=
    word32_of_bytes fun i h => ofList_eq (found i h)
  rw [read,same]

theorem slice_get {code : Code} {n i : Nat} (h : i < n) : (slice code n)[i]? = some (code i) := by
  simp only [slice,List.getElem?_map,List.getElem?_range h,Option.map_some]

@[simp] theorem slice_length (code : Code) (n : Nat) : (slice code n).length = n := by
  simp only [slice,List.length_map,List.length_range]

theorem rel32_immBytes {hs : Hde} (long : rel32 hs = true) : hs.imm32 = true ∧ 4 ≤ immBytes hs := by
  simp only [rel32,Bool.and_eq_true] at long
  exact ⟨long.1,by simp only [immBytes,long.1,if_true]; omega⟩

/-- One instruction: its bytes go to the new address with only its relative operands changed. -/
theorem relocate_rebased {decode : Decoder} (reports : Reports decode) {code : Code}
    (decoded : (decode code).error = false) {insnAddr dstAddr : Address} {bytes : List UInt8}
    (made : relocate (decode code) insnAddr dstAddr (slice code (decode code).len) = .ok bytes) :
    bytes.length = (decode code).len ∧
      Rebased (decode code) code (ofList bytes) insnAddr dstAddr := by
  have copied := fun i h => @slice_get code ((decode code).len) i h
  generalize source : slice code (decode code).len = src at made copied
  have srcLength : src.length = (decode code).len := by rw [← source,slice_length]
  have room : (decode code).relative = true → rel32 (decode code) = true → 4 ≤ (decode code).len :=
    fun relative long => (reports.branch code decoded relative (rel32_immBytes long).1).1
  simp only [relocate] at made
  split at made
  · cases made
  · rename_i dst first
    have firstSpec := relocateOperand_spec srcLength first
    have dstLength : dst.length = (decode code).len := by
      rcases firstSpec with ⟨_,rfl⟩ | ⟨_,_,replaced⟩
      · exact srcLength
      · exact replaced.length.trans srcLength
    have secondSpec := relocateBranch_spec dstLength room made
    have bytesLength : bytes.length = (decode code).len := by
      rcases secondSpec with ⟨_,rfl⟩ | ⟨_,_,replaced⟩
      · exact dstLength
      · exact replaced.length.trans dstLength
    have afterOperand : ∀ i, ¬ InOperand (decode code) i → i < (decode code).len → dst[i]? = src[i]? := by
      intro i free inside
      rcases firstSpec with ⟨_,rfl⟩ | ⟨rip,fits,replaced⟩
      · rfl
      · refine replaced.outside i ?_
        simp only [InOperand,rip,true_and,not_and] at free
        omega
    have afterBranch : ∀ i, ¬ InBranch (decode code) i → i < (decode code).len → bytes[i]? = dst[i]? := by
      intro i free inside
      rcases secondSpec with ⟨_,rfl⟩ | ⟨relative,long,replaced⟩
      · rfl
      · refine replaced.outside i ?_
        simp only [InBranch,relative,long,true_and,not_and] at free
        have := room relative long
        omega
    refine ⟨bytesLength,?_,?_,?_⟩
    · intro i inside free free'
      exact ofList_eq ((afterBranch i free' inside).trans ((afterOperand i free inside).trans (copied i inside)))
    · intro rip
      rcases firstSpec with ⟨other,_⟩ | ⟨_,fits,replaced⟩
      · rw [rip] at other
        cases other
      · refine ⟨fits,?_⟩
        rw [← replaced.word]
        congr 2
        refine word32_congr fun i h => ?_
        -- the displacement ends before a branch immediate begins
        have apart : ¬ InBranch (decode code) ((decode code).len - immBytes (decode code) - 4 + i) := by
          rintro ⟨_,long,_,_⟩
          have := (rel32_immBytes long).2
          omega
        have same := afterBranch _ apart (by omega)
        simp only [advance,ofList,List.getD_eq_getElem?_getD,same]
    · intro relative
      rcases secondSpec with ⟨other,_⟩ | ⟨_,long,replaced⟩
      · rw [relative] at other
        cases other
      · exact ⟨long,room relative long,replaced.word⟩

/-- A decoder that tells the truth sees the moved instruction for what it was. -/
theorem Rebased.sameMeaning {decode : Decoder} (reports : Reports decode) {old new : Code}
    {oldAddr newAddr : Address} (decoded : (decode old).error = false)
    (rebased : Rebased (decode old) old new oldAddr newAddr) :
    SameMeaning (decode old) (decode new) oldAddr newAddr := by
  have shape := reports.shape old new decoded rebased.rest
  have fields : ∀ {α : Type} (f : Hde → α), f (decode new).shape = f (decode old).shape :=
    fun f => congrArg f shape
  have len : (decode new).len = (decode old).len := fields Hde.len
  have error : (decode new).error = false := (fields Hde.error).trans decoded
  have imm : immBytes (decode new) = immBytes (decode old) := fields immBytes
  refine ⟨shape,?_,?_⟩
  · intro rip
    obtain ⟨room,target⟩ := rebased.operand rip
    have rip' : ripRelative (decode new) = true := (fields ripRelative).trans rip
    have disp : (decode new).disp32 = true := by
      simp only [ripRelative,Bool.and_eq_true] at rip'
      exact rip'.1.1.2
    have value := reports.displacement new error disp (by omega)
    rw [ripTarget,ripTarget,value,len,imm,target]
  · intro relative
    obtain ⟨long,room,target⟩ := rebased.branch relative
    have relative' : (decode new).relative = true := (fields Hde.relative).trans relative
    have long' : rel32 (decode new) = true := (fields rel32).trans long
    have value := (reports.branch new error relative' (rel32_immBytes long').1).2
    refine ⟨long,?_⟩
    rw [branchTarget,branchTarget,value,len,target]

end Operands

section Probing

variable {exec : Address → Bool} {events : List Event}

theorem Asked.probed (asked : Asked exec events) (a : Address) (answer : Bool) :
    Asked exec (events ++ [.probed a answer]) := by
  intro before b after split
  rcases List.eq_nil_or_concat after with rfl | ⟨rest,last,rfl⟩
  · have := List.append_inj_right' split rfl
    cases this
  · rw [List.concat_eq_append,← List.cons_append,← List.append_assoc] at split
    exact asked before b rest (List.append_inj_left' split rfl)

theorem Asked.decoded (asked : Asked exec events) {a : Address} (first : exec a = true)
    (last : exec (a + BitVec.ofNat 64 (kMaxInsnLen - 1)) = true) :
    Asked exec (events ++ [.probed a true] ++ [.probed (a + BitVec.ofNat 64 (kMaxInsnLen - 1)) true]
      ++ [.decoded a]) := by
  intro before b after split
  rcases List.eq_nil_or_concat after with rfl | ⟨rest,final,rfl⟩
  · have same := List.append_inj_right' split rfl
    have start := List.append_inj_left' split rfl
    cases same
    exact ⟨first,last,events,by rw [← start,List.append_assoc]; rfl⟩
  · rw [List.concat_eq_append,← List.cons_append,← List.append_assoc] at split
    exact (asked.probed a true).probed _ true before b rest (List.append_inj_left' split rfl)

/-- The questions of one pass, whatever came of it. -/
theorem Asked.step {exec : Address → Bool} (asked : Asked exec events) {decode : Decoder} {code : Code}
    {codeAddr outAddr : Address} {steal emitted : Nat} :
    Asked exec (events ++ (buildStep decode (some exec) code codeAddr outAddr steal emitted).2) := by
  have regroup : ∀ a b c : Event, events ++ [a,b,c] = events ++ [a] ++ [b] ++ [c] := by
    intro a b c
    simp only [List.append_assoc,List.cons_append,List.nil_append]
  simp only [buildStep,probeReadable]
  by_cases first : exec (codeAddr + BitVec.ofNat 64 steal) = true
  · by_cases last : exec (codeAddr + BitVec.ofNat 64 steal + BitVec.ofNat 64 (kMaxInsnLen - 1)) = true
    · simp only [first,last,if_true,List.cons_append,List.nil_append]
      have extended := asked.decoded first last
      rw [← regroup] at extended
      split
      · exact extended
      · split
        · exact extended
        · split <;> exact extended
    · simp only [first,last,if_true]
      have extended := (asked.probed (codeAddr + BitVec.ofNat 64 steal) true).probed
        (codeAddr + BitVec.ofNat 64 steal + BitVec.ofNat 64 (kMaxInsnLen - 1)) false
      simpa only [List.append_assoc,List.cons_append,List.nil_append] using extended
  · simp only [first]
    exact asked.probed _ false

end Probing

section Loop

variable {decode : Decoder} {isExec : Option (Address → Bool)} {code : Code} {codeAddr outAddr : Address}

/-- The loop's state after some instructions. -/
structure Progress (decode : Decoder) (code : Code) (codeAddr outAddr : Address) (minBytes : Int)
    (steal emitted : Nat) (out : List UInt8) (events : List Event) : Prop where
  emitted : emitted = steal
  length : out.length = steal
  cap : steal ≤ kMaxSteal
  starts : Starts decode code steal
  short : ∀ o, Starts decode code o → o < steal → (o : Int) < minBytes
  decoded : ∀ o, Starts decode code o → o < steal →
    (decode (advance code o)).error = false ∧ 0 < (decode (advance code o)).len ∧
      .decoded (codeAddr + BitVec.ofNat 64 o) ∈ events
  rebased : ∀ o, Starts decode code o → o < steal →
    Rebased (decode (advance code o)) (advance code o) (advance (ofList out) o)
      (codeAddr + BitVec.ofNat 64 o) (outAddr + BitVec.ofNat 64 o)

theorem Progress.start {minBytes : Int} : Progress decode code codeAddr outAddr minBytes 0 0 [] [] where
  emitted := rfl
  length := rfl
  cap := Nat.zero_le _
  starts := starts_zero
  short o _ lt := by omega
  decoded o _ lt := by omega
  rebased o _ lt := by omega

theorem ofList_append_left {out bytes : List UInt8} {i : Nat} (h : i < out.length) :
    ofList (out ++ bytes) i = ofList out i := by
  simp only [ofList,List.getD_eq_getElem?_getD,List.getElem?_append_left h]

theorem ofList_append_right (out bytes : List UInt8) (i : Nat) :
    ofList (out ++ bytes) (out.length + i) = ofList bytes i := by
  simp only [ofList,List.getD_eq_getElem?_getD]
  rw [List.getElem?_append_right (by omega),Nat.add_sub_cancel_left]

theorem Progress.step (reports : Reports decode) {minBytes : Int} {steal emitted len : Nat} {out bytes : List UInt8}
    {events more : List Event} (progress : Progress decode code codeAddr outAddr minBytes steal emitted out events)
    (wanting : (steal : Int) < minBytes)
    (stepped : Stepped decode isExec code codeAddr outAddr steal emitted len bytes more) :
    Progress decode code codeAddr outAddr minBytes (steal + len) (emitted + len) (out ++ bytes) (events ++ more) := by
  obtain ⟨rfl,length,cap,starts,short,decoded,rebased⟩ := progress
  obtain ⟨rfl,positive,fine,room,relocated,asked,probed,rfl⟩ := stepped
  obtain ⟨bytesLength,moved⟩ := relocate_rebased reports fine relocated
  -- a start below the new end is an earlier one or the one just copied
  have below : ∀ o, Starts decode code o → o < emitted + (decode (advance code emitted)).len →
      o < emitted ∨ o = emitted := by
    intro o begins lt
    rcases Nat.lt_trichotomy o emitted with before | same | after
    · exact .inl before
    · exact .inr same
    · have := starts.next_le begins after
      omega
  refine ⟨rfl,?_,room,starts.next,?_,?_,?_⟩
  · rw [List.length_append,length,bytesLength]
  · intro o begins lt
    rcases below o begins lt with before | rfl
    · exact short o begins before
    · exact wanting
  · intro o begins lt
    rcases below o begins lt with before | rfl
    · obtain ⟨clean,long,member⟩ := decoded o begins before
      exact ⟨clean,long,List.mem_append_left _ member⟩
    · exact ⟨fine,positive,by simp⟩
  · intro o begins lt
    rcases below o begins lt with before | rfl
    · have ends := begins.next_le starts before
      refine (rebased o begins before).congr fun i h => ?_
      exact ofList_append_left (by omega)
    · refine moved.congr fun i h => ?_
      rw [← length]
      exact ofList_append_right out bytes i

/-- The loop ends with enough bytes or with a reason. -/
theorem buildLoop_spec (reports : Reports decode) (minBytes : Int) :
    ∀ (left steal emitted : Nat) (out : List UInt8) (events : List Event), kMaxSteal - steal ≤ left →
      Progress decode code codeAddr outAddr minBytes steal emitted out events →
      let built := buildLoop decode isExec code codeAddr outAddr minBytes steal emitted out events
      (built.ok = true ∧ minBytes ≤ built.steal ∧
        Progress decode code codeAddr outAddr minBytes built.steal built.emitted built.out built.events) ∨
      (built.ok = false ∧ ∃ reason, built.reason = some reason) := by
  intro left
  induction left with
  | zero =>
    intro steal emitted out events few progress
    rw [buildLoop]
    split
    · split
      · exact .inr ⟨rfl,_,rfl⟩
      · rename_i made
        have stepped := buildStep_cases made
        have positive := stepped.positive
        have room := stepped.room
        omega
    · rename_i enough
      exact .inl ⟨rfl,by simpa using enough,progress⟩
  | succ left ih =>
    intro steal emitted out events few progress
    rw [buildLoop]
    split
    · rename_i wanting
      split
      · exact .inr ⟨rfl,_,rfl⟩
      · rename_i made
        have stepped := buildStep_cases made
        have positive := stepped.positive
        exact ih _ _ _ _ (by omega) (progress.step reports wanting stepped)
    · rename_i enough
      exact .inl ⟨rfl,by simpa using enough,progress⟩

theorem buildLoop_asked {exec : Address → Bool} (minBytes : Int) :
    ∀ (left steal emitted : Nat) (out : List UInt8) (events : List Event), kMaxSteal - steal ≤ left →
      Asked exec events →
      Asked exec (buildLoop decode (some exec) code codeAddr outAddr minBytes steal emitted out events).events := by
  intro left
  induction left with
  | zero =>
    intro steal emitted out events few asked
    rw [buildLoop]
    have extended := @Asked.step _ _ asked decode code codeAddr outAddr steal emitted
    split
    · split
      · rename_i made
        rwa [made] at extended
      · rename_i made
        have stepped := buildStep_cases made
        have positive := stepped.positive
        have room := stepped.room
        omega
    · exact asked
  | succ left ih =>
    intro steal emitted out events few asked
    rw [buildLoop]
    have extended := @Asked.step _ _ asked decode code codeAddr outAddr steal emitted
    split
    · split
      · rename_i made
        rwa [made] at extended
      · rename_i made
        rw [made] at extended
        have positive := (buildStep_cases made).positive
        exact ih _ _ _ _ (by omega) extended
    · exact asked

/-- One pass of the loop that did not refuse. -/
theorem buildLoop_next {minBytes : Int} {steal emitted len : Nat} {out bytes : List UInt8} {events more : List Event}
    (short : (steal : Int) < minBytes)
    (made : buildStep decode isExec code codeAddr outAddr steal emitted = (.inr (len,bytes),more)) :
    buildLoop decode isExec code codeAddr outAddr minBytes steal emitted out events =
      buildLoop decode isExec code codeAddr outAddr minBytes (steal + len) (emitted + len) (out ++ bytes)
        (events ++ more) := by
  rw [buildLoop,if_pos short]
  split
  · rename_i refused
    rw [made] at refused
    cases refused
  · rename_i again
    rw [made] at again
    cases again
    rfl

theorem buildLoop_done {minBytes : Int} {steal emitted : Nat} {out : List UInt8} {events : List Event}
    (enough : minBytes ≤ steal) :
    buildLoop decode isExec code codeAddr outAddr minBytes steal emitted out events =
      ⟨true,none,steal,emitted,out,events⟩ := by
  rw [buildLoop,if_neg (by omega)]

end Loop

theorem built_progress {decode : Decoder} (reports : Reports decode) {isExec : Option (Address → Bool)}
    {code : Code} {codeAddr outAddr : Address} {minBytes : Int} {built : Built}
    (made : built = buildTrampolineBody decode isExec code codeAddr outAddr minBytes) (ok : built.ok = true) :
    minBytes ≤ built.steal ∧
      Progress decode code codeAddr outAddr minBytes built.steal built.emitted built.out built.events := by
  subst made
  rcases buildLoop_spec reports minBytes _ 0 0 [] [] (Nat.le_refl _) Progress.start with ⟨_,spec⟩ | ⟨refused,_⟩
  · exact spec
  · rw [buildTrampolineBody,refused] at ok
    cases ok

/-- The trampoline body of a prologue is the prologue's own instructions, each operand designating
what it designated; otherwise the refusal has a reason. -/
theorem relocation_keeps_meaning (decode : Decoder) (reports : Reports decode)
    (isExec : Option (Address → Bool)) (code : Code) (codeAddr outAddr : Address) (minBytes : Int) :
    let built := buildTrampolineBody decode isExec code codeAddr outAddr minBytes
    (built.ok = true →
      minBytes ≤ built.steal ∧ built.steal = built.emitted ∧ built.emitted ≤ kMaxSteal ∧
      built.out.length = built.emitted ∧ Relocated decode code codeAddr built.out outAddr ∧
      ∀ o, Starts decode code o → o < built.steal →
        .decoded (codeAddr + BitVec.ofNat 64 o) ∈ built.events) ∧
    (∀ exec, isExec = some exec → Asked exec built.events) ∧
    (built.ok = false → ∃ reason, built.reason = some reason) := by
  intro built
  refine ⟨?_,?_,?_⟩
  · intro ok
    obtain ⟨enough,progress⟩ := @built_progress _ reports _ _ _ _ _ built rfl ok
    have length := progress.length
    have emitted := progress.emitted
    have cap := progress.cap
    refine ⟨enough,emitted.symm,by omega,by omega,?_,fun o starts lt => (progress.decoded o starts lt).2.2⟩
    refine ⟨length ▸ progress.starts,?_,?_,?_⟩
    · intro o starts lt
      rw [length] at lt ⊢
      exact ⟨(progress.decoded o starts lt).2.1,starts.next_le progress.starts lt⟩
    · intro o starts lt i inside free free'
      rw [length] at lt
      have same := (progress.rebased o starts lt).rest i inside free free'
      have bound := starts.next_le progress.starts lt
      rw [List.getElem?_eq_getElem (by omega)]
      simpa only [advance,ofList,List.getD_eq_getElem?_getD,List.getElem?_eq_getElem
        (show o + i < built.out.length by omega),Option.getD_some,Option.some.injEq] using same
    · intro o starts lt
      rw [length] at lt
      exact (progress.rebased o starts lt).sameMeaning reports (progress.decoded o starts lt).1
  · rintro exec rfl
    apply buildLoop_asked minBytes _ 0 0 [] [] (Nat.le_refl _)
    intro before a after split
    simp at split
  · intro refused
    rcases buildLoop_spec reports minBytes _ 0 0 [] [] (Nat.le_refl _) Progress.start with
      ⟨ok,_,_⟩ | ⟨_,reason⟩
    · change built.ok = true at ok
      rw [ok] at refused
      cases refused
    · exact reason

section FewOpcodes

inductive Opcode where
  | plain
  | near
  | conditional
  | compare
  | other
deriving DecidableEq

/-- `push`, `nop`; `call`, `jmp`; `jcc rel32`; `cmp dword [rip+d],imm8`. -/
def opcodeOf (first second : UInt8) : Opcode :=
  if first.toNat / 8 = 10 ∨ first = 0x90 then .plain
  else if first = 0xE8 ∨ first = 0xE9 then .near
  else if first = 0x0F ∧ second.toNat / 16 = 8 then .conditional
  else if first = 0x83 ∧ second = 0x3D then .compare
  else .other

def Opcode.hde (opcode : Opcode) (code : Code) : Hde :=
  let plain : Hde := ⟨1,false,false,false,false,false,false,false,false,0,0,(code 0).toNat,0,0,0⟩
  match opcode with
  | .plain => plain
  | .near => { plain with len := 5, imm32 := true, relative := true, immValue := word32 (advance code 1) }
  | .conditional =>
    { plain with
      len := 6, imm32 := true, relative := true, opcode2 := (code 1).toNat
      immValue := word32 (advance code 2) }
  | .compare =>
    { plain with
      len := 7, modrm := true, imm8 := true, disp32 := true, modrmRm := 5
      dispValue := word32 (advance code 2) }
  | .other => { plain with error := true }

/-- A disassembler of a few opcodes. -/
def prologueDecoder : Decoder := fun code => (opcodeOf (code 0) (code 1)).hde code

theorem opcodeOf_first {first second : UInt8} (other : UInt8)
    (short : opcodeOf first second = .plain ∨ opcodeOf first second = .near) :
    opcodeOf first other = opcodeOf first second := by
  simp only [opcodeOf] at *
  by_cases plain : first.toNat / 8 = 10 ∨ first = 0x90
  · simp only [if_pos plain]
  · by_cases near : first = 0xE8 ∨ first = 0xE9
    · simp only [if_neg plain,if_pos near]
    · simp only [if_neg plain,if_neg near] at short
      split at short
      · simp at short
      · split at short <;> simp at short

theorem Opcode.first_kept {opcode : Opcode} (known : opcode ≠ .other) (code : Code) :
    0 < (opcode.hde code).len ∧ ¬ InOperand (opcode.hde code) 0 ∧ ¬ InBranch (opcode.hde code) 0 := by
  cases opcode with
  | other => exact absurd rfl known
  | _ => simp [Opcode.hde,InOperand,InBranch,ripRelative,immBytes]

theorem prologueDecoder_reports : Reports prologueDecoder where
  displacement code clean disp _ := by
    simp only [prologueDecoder] at *
    generalize opcodeOf (code 0) (code 1) = opcode at *
    cases opcode <;> first | rfl | cases disp
  branch code clean relative imm := by
    simp only [prologueDecoder] at *
    generalize opcodeOf (code 0) (code 1) = opcode at *
    cases opcode <;> first | exact ⟨by simp [Opcode.hde],rfl⟩ | cases relative
  shape code code' clean same := by
    simp only [prologueDecoder] at *
    have first : opcodeOf (code 0) (code 1) ≠ .other → code' 0 = code 0 := by
      intro known
      obtain ⟨inside,free,free'⟩ := Opcode.first_kept known code
      exact same 0 inside free free'
    cases kind : opcodeOf (code 0) (code 1) with
    | plain =>
      have kept := opcodeOf_first (code' 1) (.inl kind)
      rw [first (by simp [kind]),kept,kind]
      simp only [Opcode.hde,Hde.shape,first (by simp [kind])]
    | near =>
      have kept := opcodeOf_first (code' 1) (.inr kind)
      rw [first (by simp [kind]),kept,kind]
      simp only [Opcode.hde,Hde.shape,first (by simp [kind])]
    | conditional =>
      have second := same 1 (by simp [kind,Opcode.hde]) (by simp [kind,InOperand,ripRelative,Opcode.hde])
        (by simp [kind,InBranch,Opcode.hde])
      rw [first (by simp [kind]),second,kind]
      simp only [Opcode.hde,Hde.shape,first (by simp [kind]),second]
    | compare =>
      have second := same 1 (by simp [kind,Opcode.hde]) (by simp [kind,InOperand,immBytes,Opcode.hde])
        (by simp [kind,InBranch,Opcode.hde])
      rw [first (by simp [kind]),second,kind]
      simp only [Opcode.hde,Hde.shape,first (by simp [kind])]
    | other =>
      rw [kind] at clean
      cases clean

/-- `push rbp; cmp dword [rip+0x100],1; call +0x20; nop` at 0x10000. -/
def somePrologue : Code :=
  ofList [0x55,0x83,0x3D,0,1,0,0,1,0xE8,0x20,0,0,0,0x90]

theorem somePrologue_relocated :
    let built := buildTrampolineBody prologueDecoder (some fun _ => true) somePrologue 0x10000 0x20000 14
    built.ok = true ∧
    built.out = [0x55,0x83,0x3D,0,1,0xFF,0xFF,1,0xE8,0x20,0,0xFF,0xFF,0x90] ∧
    Relocated prologueDecoder somePrologue 0x10000 built.out 0x20000 := by
  have run : ∃ events, buildTrampolineBody prologueDecoder (some fun _ => true) somePrologue 0x10000 0x20000 14 =
      ⟨true,none,14,14,[0x55,0x83,0x3D,0,1,0xFF,0xFF,1,0xE8,0x20,0,0xFF,0xFF,0x90],events⟩ := by
    rw [buildTrampolineBody]
    rw [buildLoop_next (by decide) rfl,buildLoop_next (by decide) rfl,buildLoop_next (by decide) rfl,
      buildLoop_next (by decide) rfl,buildLoop_done (by decide)]
    exact ⟨_,rfl⟩
  obtain ⟨events,run⟩ := run
  have general := (relocation_keeps_meaning prologueDecoder prologueDecoder_reports (some fun _ => true)
    somePrologue 0x10000 0x20000 14).1
  simp only [run] at general ⊢
  exact ⟨trivial,trivial,(general trivial).2.2.2.2.1⟩

end FewOpcodes

end S2Script.Detours
