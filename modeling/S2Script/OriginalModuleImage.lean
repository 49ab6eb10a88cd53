import S2Script.OriginalModuleParsing

/-! A verified image is faithful: its executable bytes are the file's, at addresses that the
mappings back with the same file, and its readable ranges are the module's own. -/
namespace S2Script.OriginalModule

/-- Where a segment is loaded, over the integers. -/
def loadAddress (id : Identity) (h : ProgramHeader) : Nat := id.loadBias.toNat + h.vaddr.toNat

structure Executable (headers : List ProgramHeader) (h : ProgramHeader) : Prop where
  mem : h ∈ headers
  load : h.type = 1
  flag : h.flags &&& 1 ≠ 0
  backed : h.filesz ≠ 0

/-- The range lies in the file-backed part of the segment. -/
def InFile (id : Identity) (h : ProgramHeader) (a n : UInt64) : Prop :=
  loadAddress id h ≤ a.toNat ∧ a.toNat + n.toNat ≤ loadAddress id h + h.filesz.toNat

instance (id : Identity) (h : ProgramHeader) (a n : UInt64) : Decidable (InFile id h a n) :=
  inferInstanceAs (Decidable (_ ∧ _))

/-- A mapping of the module's file shows the byte `o` of it at the address `a`. -/
def Backed (id : Identity) (maps : List Mapping) (a o : Nat) : Prop :=
  ∃ m ∈ maps, m.begin.toNat ≤ a ∧ a < m.limit.toNat ∧ m.device = id.device ∧ m.inode = id.inode ∧
    m.fileOffset.toNat + (a - m.begin.toNat) = o

/-- A readable mapping in a readable load segment: the module's own, or anonymous behind its file bytes. -/
def Readable (headers : List ProgramHeader) (id : Identity) (maps : List Mapping) (a : Nat) : Prop :=
  ∃ m ∈ maps, m.readable = true ∧ m.begin.toNat ≤ a ∧ a < m.limit.toNat ∧
  ∃ h ∈ headers, h.type = 1 ∧ h.flags &&& 4 ≠ 0 ∧ loadAddress id h ≤ a ∧ a < loadAddress id h + h.memsz.toNat ∧
    (m.device = id.device ∧ m.inode = id.inode ∨
      m.device = 0 ∧ m.inode = 0 ∧ loadAddress id h + h.filesz.toNat ≤ a)

section Mapped

variable {file : File} {id : Identity} {maps : List Mapping} {h : ProgramHeader}

/-- A segment that passed `mapped`. -/
structure Placed (id : Identity) (maps : List Mapping) (h : ProgramHeader) : Prop where
  room : loadAddress id h + h.memsz.toNat < 2 ^ 64
  backed : ∀ k < h.filesz.toNat, Backed id maps (loadAddress id h + k) (h.offset.toNat + k)

theorem mappedLoop_backed (checked : Checked file h) (load : h.type = 1)
    (room : loadAddress id h + h.memsz.toNat < 2 ^ 64) :
    ∀ (left : Nat) (done : UInt64), h.filesz.toNat - done.toNat ≤ left → done.toNat ≤ h.filesz.toNat →
      (∀ k < done.toNat, Backed id maps (loadAddress id h + k) (h.offset.toNat + k)) →
      mappedLoop h id maps done = .ok () →
      ∀ k < h.filesz.toNat, Backed id maps (loadAddress id h + k) (h.offset.toNat + k) := by
  have small := file.small
  have inFile := checked.backed
  have le := checked.load load
  simp only [loadAddress] at room ⊢
  intro left
  induction left with
  | zero =>
    intro done few below backed _ k lt
    exact backed k (by omega)
  | succ left ih =>
    intro done few below backed made
    rw [mappedLoop] at made
    split at made
    · rename_i short
      split at made
      · cases made
      · rename_i next step
        obtain ⟨m,backs⟩ := mappedStep_cases short step
        obtain ⟨mem,starts,ends,device,inode,noWrap,offset,next_eq⟩ := backs
        have begin : (id.loadBias + h.vaddr).toNat = id.loadBias.toNat + h.vaddr.toNat := toNat_add_of_lt (by omega)
        have cursor : (id.loadBias + h.vaddr + done).toNat = id.loadBias.toNat + h.vaddr.toNat + done.toNat := by
          rw [toNat_add_of_lt (by omega),begin]
        have offset' := congrArg UInt64.toNat offset
        have delta := UInt64.toNat_sub_of_le _ _ (UInt64.le_iff_toNat_le.mpr starts)
        have shown : (m.fileOffset + (id.loadBias + h.vaddr + done - m.begin)).toNat =
            m.fileOffset.toNat + ((id.loadBias + h.vaddr + done).toNat - m.begin.toNat) := by
          rw [toNat_add_of_lt (by omega),delta]
        have wanted : (h.offset + done).toNat = h.offset.toNat + done.toNat := toNat_add_of_lt (by
          have short' := UInt64.lt_iff_toNat_lt.mp short
          omega)
        rw [shown,wanted] at offset'
        rw [cursor] at starts ends next_eq offset'
        refine ih next (by omega) (by omega) (fun k lt => ?_) made
        by_cases old : k < done.toNat
        · exact backed k old
        · exact ⟨m,mem,by omega,by omega,device,inode,by omega⟩
    · rename_i enough
      intro k lt
      refine backed k ?_
      rw [UInt64.lt_iff_toNat_lt] at enough
      omega

theorem mapped_placed (checked : Checked file h) (load : h.type = 1) (made : mapped h id maps = .ok ()) :
    Placed id maps h := by
  simp only [mapped] at made
  split at made
  · cases made
  · rename_i overflow
    simp only [Bool.or_eq_true,Bool.not_eq_true',not_or,Bool.not_eq_false] at overflow
    have first := toNat_add_of_fits overflow.1
    have second := fits_iff.mp overflow.2
    have top : maximum.toNat = 2 ^ 64 - 1 := rfl
    have room : loadAddress id h + h.memsz.toNat < 2 ^ 64 := by
      simp only [loadAddress]
      omega
    have zero : (0 : UInt64).toNat = 0 := rfl
    exact ⟨room,mappedLoop_backed checked load room _ 0 (Nat.le_refl _) (by omega) (fun k lt => by omega) made⟩

theorem mappedStep_inside {done : UInt64} : Inside (mappedStep h id maps done) := by
  simp only [mappedStep]
  split
  · exact inside_refuse _
  · split
    · exact inside_refuse _
    · split
      · exact inside_refuse _
      · exact inside_ok _
  · exact inside_refuse _

theorem mappedLoop_inside : ∀ (left : Nat) (done : UInt64), h.filesz.toNat - done.toNat ≤ left →
    Inside (mappedLoop h id maps done) := by
  intro left
  induction left with
  | zero =>
    intro done few
    rw [mappedLoop,dif_neg (by rw [UInt64.lt_iff_toNat_lt]; omega)]
    exact inside_ok _
  | succ left ih =>
    intro done few
    rw [mappedLoop]
    split
    · rename_i short
      split
      · rename_i fault step
        have inside := @mappedStep_inside id maps h done
        rw [step] at inside
        exact fun outside => inside (by cases outside; rfl)
      · rename_i next step
        obtain ⟨m,backs⟩ := mappedStep_cases short step
        have ends := backs.ends
        have next_eq := backs.next_eq
        have short' := UInt64.lt_iff_toNat_lt.mp short
        exact ih next (by omega)
    · exact inside_ok _

theorem mapped_inside : Inside (mapped h id maps) := by
  simp only [mapped]
  split
  · exact inside_refuse _
  · exact mappedLoop_inside _ 0 (Nat.le_refl _)

end Mapped

section Loading

variable {file : File} {id : Identity} {maps : List Mapping}

/-- Ranges without a common address. -/
def Apart (r s : ReadableRange) : Prop := r.limit.toNat ≤ s.begin.toNat ∨ s.limit.toNat ≤ r.begin.toNat

theorem Apart.symm {r s : ReadableRange} (apart : Apart r s) : Apart s r := Or.symm apart

def rangeOf (id : Identity) (h : ProgramHeader) : ReadableRange :=
  ⟨id.loadBias + h.vaddr,id.loadBias + h.vaddr + h.memsz⟩

theorem rangeOf_toNat {h : ProgramHeader} (room : loadAddress id h + h.memsz.toNat < 2 ^ 64) :
    (rangeOf id h).begin.toNat = loadAddress id h ∧
      (rangeOf id h).limit.toNat = loadAddress id h + h.memsz.toNat := by
  simp only [loadAddress] at room ⊢
  have begin : (id.loadBias + h.vaddr).toNat = id.loadBias.toNat + h.vaddr.toNat := toNat_add_of_lt (by omega)
  exact ⟨begin,by rw [rangeOf,toNat_add_of_lt (by omega),begin]⟩

def segmentOf (file : File) (id : Identity) (h : ProgramHeader) : Segment :=
  ⟨id.loadBias + h.vaddr,(file.bytes.drop h.offset.toNat).take h.filesz.toNat⟩

def isLoad (h : ProgramHeader) : Bool := h.type = 1 ∧ h.memsz ≠ 0

def isExecutable (h : ProgramHeader) : Bool := h.type = 1 ∧ h.flags &&& 1 ≠ 0 ∧ h.filesz ≠ 0

def isReadable (h : ProgramHeader) : Bool := h.type = 1 ∧ h.flags &&& 4 ≠ 0

/-- What the loop over the headers collected from the ones it went through. -/
structure Loaded (file : File) (id : Identity) (maps : List Mapping) (headers : List ProgramHeader)
    (loads : Loads) : Prop where
  placed : ∀ h ∈ headers, h.type = 1 → Placed id maps h
  segments : loads.segments = (headers.filter isExecutable).map (segmentOf file id)
  ranges : loads.ranges = (headers.filter isReadable).flatMap fun h =>
    readableParts id h (rangeOf id h).begin (rangeOf id h).limit maps
  loadRanges : loads.loadRanges = (headers.filter isLoad).map (rangeOf id)
  apart : loads.loadRanges.Pairwise Apart

theorem Loaded.start : Loaded file id maps [] ⟨[],[],[]⟩ where
  placed _ member := by cases member
  segments := rfl
  ranges := rfl
  loadRanges := rfl
  apart := List.Pairwise.nil

theorem addSegment_eq {h : ProgramHeader} {begin : UInt64} {segments : List Segment} (checked : Checked file h) :
    addSegment file h begin segments = .ok (if h.flags &&& 1 ≠ 0 ∧ h.filesz ≠ 0 then
      segments ++ [⟨begin,(file.bytes.drop h.offset.toNat).take h.filesz.toNat⟩] else segments) := by
  simp only [addSegment]
  split
  · rw [span_inside checked.backed]
    rfl
  · rfl

theorem loadStep_loaded {headers : List ProgramHeader} {h : ProgramHeader} {loads loads' : Loads}
    (checked : Checked file h) (loaded : Loaded file id maps headers loads)
    (made : loadStep file id maps loads h = .ok loads') : Loaded file id maps (headers ++ [h]) loads' := by
  obtain ⟨placed,segments,ranges,loadRanges,apart⟩ := loaded
  simp only [loadStep] at made
  split at made
  · rename_i other
    cases made
    have skip : isExecutable h = false ∧ isReadable h = false ∧ isLoad h = false := by
      simp [isExecutable,isReadable,isLoad,other]
    refine ⟨?_,?_,?_,?_,apart⟩
    · intro h' member load
      rcases List.mem_append.mp member with before | here
      · exact placed h' before load
      · rw [List.mem_singleton.mp here] at load
        exact absurd load other
    all_goals simp only [List.filter_append,List.filter_cons,skip,Bool.false_eq_true,if_false,List.filter_nil,
      List.append_nil,segments,ranges,loadRanges]
  · rename_i load
    simp only [ne_eq,not_not] at load
    obtain ⟨_,backed,made⟩ := bind_ok made
    split at made
    · cases made
    · rename_i free
      rw [addSegment_eq checked] at made
      obtain ⟨_,same,made⟩ := bind_ok made
      cases same
      cases made
      have here := mapped_placed checked load backed
      refine ⟨?_,?_,?_,?_,?_⟩
      · intro h' member load'
        rcases List.mem_append.mp member with before | last
        · exact placed h' before load'
        · rw [List.mem_singleton.mp last]
          exact here
      · rw [segments,List.filter_append,List.map_append]
        by_cases exec : h.flags &&& 1 ≠ 0 ∧ h.filesz ≠ 0
        · simp [exec,isExecutable,load,segmentOf]
        · have no : isExecutable h = false := by simpa [isExecutable,load] using exec
          simp [exec,no]
      · rw [ranges,List.filter_append,List.flatMap_append]
        by_cases read : h.flags &&& 4 ≠ 0
        · simp [read,isReadable,load,rangeOf]
        · have no : isReadable h = false := by simpa [isReadable,load] using read
          simp [read,no]
      · rw [loadRanges,List.filter_append,List.map_append]
        by_cases some : h.memsz ≠ 0
        · simp [some,isLoad,load,rangeOf]
        · have no : isLoad h = false := by simpa [isLoad,load] using some
          simp [some,no]
      · change List.Pairwise Apart (if h.memsz ≠ 0 then _ else _)
        split
        · rw [List.pairwise_append]
          refine ⟨apart,List.pairwise_singleton _ _,?_⟩
          intro r member s only
          rw [List.mem_singleton.mp only]
          have clear := List.any_eq_false.mp (Bool.not_eq_true _ ▸ free) r member
          simp only [Bool.and_eq_true,decide_eq_true_eq,not_and,UInt64.lt_iff_toNat_lt,Nat.not_lt] at clear
          simp only [Apart]
          by_cases before : (id.loadBias + h.vaddr).toNat < r.limit.toNat
          · exact .inr (clear before)
          · exact .inl (by omega)
        · exact apart

theorem loadStep_inside {loads : Loads} {h : ProgramHeader} (checked : Checked file h) :
    Inside (loadStep file id maps loads h) := by
  simp only [loadStep]
  split
  · exact inside_ok _
  · apply Inside.bind mapped_inside
    intro _ _
    split
    · exact inside_refuse _
    · rw [addSegment_eq checked]
      apply Inside.bind (inside_ok _)
      intro _ _
      exact inside_ok _

theorem loadLoop_loaded : ∀ {rest headers : List ProgramHeader} {loads loads' : Loads},
    (∀ h ∈ rest, Checked file h) → Loaded file id maps headers loads →
      loadLoop file id maps loads rest = .ok loads' → Loaded file id maps (headers ++ rest) loads'
  | [], headers, loads, _, _, loaded, made => by
    cases made
    rwa [List.append_nil]
  | h :: rest, headers, loads, loads', checked, loaded, made => by
    obtain ⟨between,step,made⟩ := bind_ok made
    have next := loadStep_loaded (checked h List.mem_cons_self) loaded step
    have final := loadLoop_loaded (fun h' member => checked h' (List.mem_cons_of_mem _ member)) next made
    rwa [List.append_assoc] at final

theorem loadLoop_inside : ∀ {rest : List ProgramHeader} {loads : Loads}, (∀ h ∈ rest, Checked file h) →
    Inside (loadLoop file id maps loads rest)
  | [], _, _ => inside_ok _
  | h :: rest, loads, checked => by
    simp only [loadLoop]
    apply Inside.bind (loadStep_inside (checked h List.mem_cons_self))
    intro between _
    exact loadLoop_inside fun h' member => checked h' (List.mem_cons_of_mem _ member)

end Loading

section Merging

/-- Every byte of the one list of ranges is a byte of the other. -/
def Covered (merged ranges : List ReadableRange) : Prop :=
  ∀ r ∈ merged, ∀ a, r.begin.toNat ≤ a → a < r.limit.toNat →
    ∃ part ∈ ranges, part.begin.toNat ≤ a ∧ a < part.limit.toNat

theorem mergeStep_covered {merged merged' ranges : List ReadableRange} {range : ReadableRange}
    (covered : Covered merged ranges) (member : range ∈ ranges) (made : mergeStep merged range = .ok merged') :
    Covered merged' ranges := by
  simp only [mergeStep] at made
  split at made
  · cases made
    intro r only a above below
    rw [List.mem_singleton.mp only] at above below
    exact ⟨range,member,above,below⟩
  · rename_i last found
    have lastMem : last ∈ merged := List.mem_of_getLast? found
    split at made
    · cases made
    · split at made
      · rename_i joins
        cases made
        intro r inside a above below
        rcases List.mem_append.mp inside with before | here
        · exact covered r ((List.dropLast_sublist _).subset before) a above below
        · rw [List.mem_singleton.mp here] at above below
          by_cases old : a < last.limit.toNat
          · exact covered last lastMem a above old
          · exact ⟨range,member,by rw [joins]; omega,below⟩
      · cases made
        intro r inside a above below
        rcases List.mem_append.mp inside with before | here
        · exact covered r before a above below
        · rw [List.mem_singleton.mp here] at above below
          exact ⟨range,member,above,below⟩

theorem mergeLoop_covered {ranges : List ReadableRange} : ∀ {rest merged merged' : List ReadableRange},
    Covered merged ranges → (∀ r ∈ rest, r ∈ ranges) → mergeLoop merged rest = .ok merged' → Covered merged' ranges
  | [], _, _, covered, _, made => by
    cases made
    exact covered
  | range :: rest, _, _, covered, members, made => by
    obtain ⟨between,step,made⟩ := bind_ok made
    exact mergeLoop_covered (mergeStep_covered covered (members range List.mem_cons_self) step)
      (fun r member => members r (List.mem_cons_of_mem _ member)) made

theorem mergeLoop_inside : ∀ {rest merged : List ReadableRange}, Inside (mergeLoop merged rest)
  | [], _ => inside_ok _
  | range :: rest, merged => by
    simp only [mergeLoop]
    apply Inside.bind
    · simp only [mergeStep]
      split
      · exact inside_ok _
      · split
        · exact inside_refuse _
        · split <;> exact inside_ok _
    · intro _ _
      exact mergeLoop_inside

/-- A part of a readable segment is in a readable mapping that belongs there. -/
theorem readableParts_readable {headers : List ProgramHeader} {id : Identity} {maps : List Mapping} {h : ProgramHeader}
    (member : h ∈ headers) (load : h.type = 1) (flag : h.flags &&& 4 ≠ 0)
    (room : loadAddress id h + h.memsz.toNat < 2 ^ 64) (le : h.filesz.toNat ≤ h.memsz.toNat) {part : ReadableRange}
    (found : part ∈ readableParts id h (rangeOf id h).begin (rangeOf id h).limit maps) {a : Nat}
    (above : part.begin.toNat ≤ a) (below : a < part.limit.toNat) : Readable headers id maps a := by
  obtain ⟨begin,limit⟩ := rangeOf_toNat room
  have behind : ((rangeOf id h).begin + h.filesz).toNat = loadAddress id h + h.filesz.toNat := by
    rw [toNat_add_of_lt (by omega),begin]
  simp only [readableParts,List.mem_filterMap] at found
  obtain ⟨m,mem,made⟩ := found
  have starts := later_toNat (rangeOf id h).begin m.begin
  have ends := sooner_toNat (rangeOf id h).limit m.limit
  split at made
  · cases made
  · rename_i dead
    simp only [not_or,Bool.not_eq_true',Bool.not_eq_false] at dead
    split at made
    · cases made
    · rename_i foreign
      cases made
      change (later (rangeOf id h).begin m.begin).toNat ≤ a at above
      change a < (sooner (rangeOf id h).limit m.limit).toNat at below
      refine ⟨m,mem,dead.2,by omega,by omega,h,member,load,flag,by omega,by omega,?_⟩
      · by_cases mine : m.device = id.device ∧ m.inode = id.inode
        · exact .inl mine
        · simp only [mine,not_false_eq_true,true_and,not_or,ne_eq,not_not,UInt64.lt_iff_toNat_lt,Nat.not_lt] at foreign
          exact .inr ⟨foreign.1,foreign.2.1,by omega⟩

end Merging

end S2Script.OriginalModule
