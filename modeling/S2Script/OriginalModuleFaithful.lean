import S2Script.OriginalModuleImage

/-! What `FromElf` hands out, for every file, identity pair and list of mappings. -/
namespace S2Script.OriginalModule

section Result

variable {cache cache' : List Image} {file : File} {expected observed : Identity} {maps : List Mapping} {image : Image}

/-- How an image came about. -/
structure Verified (file : File) (expected : Identity) (maps : List Mapping) (image : Image)
    (headers : List ProgramHeader) (loads : Loads) : Prop where
  parsed : parse file = .ok (headers,expected.buildId)
  loaded : Loaded file expected maps headers loads
  identity : image.identity = expected
  segments : image.segments = loads.segments.mergeSort fun s t => s.liveBegin ≤ t.liveBegin
  covered : Covered image.readable loads.ranges

theorem fromElf_verified (made : fromElf cache file expected observed maps = .ok (image,cache')) :
    observed = expected ∧ ∃ headers loads, Verified file expected maps image headers loads := by
  simp only [fromElf] at made
  split at made
  · cases made
  · rename_i same
    simp only [not_or,ne_eq,not_not] at same
    obtain ⟨device,inode,bias,build⟩ := same
    have identical : observed = expected := by
      cases observed
      cases expected
      simp only [Identity.mk.injEq]
      exact ⟨device.symm,inode.symm,bias.symm,build.symm⟩
    obtain ⟨⟨headers,buildId⟩,parsed,made⟩ := bind_ok made
    dsimp only at made
    split at made
    · cases made
    · rename_i known
      simp only [not_or,ne_eq,not_not] at known
      split at made
      · cases made
      · obtain ⟨loads,loop,made⟩ := bind_ok made
        split at made
        · cases made
        · obtain ⟨merged,merge,made⟩ := bind_ok made
          have loaded := loadLoop_loaded (parse_checked parsed) Loaded.start loop
          rw [List.nil_append] at loaded
          have covered : Covered merged loads.ranges :=
            mergeLoop_covered (fun r member => by cases member) (fun r member => List.mem_mergeSort.mp member) merge
          rw [known.2] at parsed
          refine ⟨identical,headers,loads,?_⟩
          split at made
          · rename_i old found
            cases made
            have equal := List.find?_some found
            rw [of_decide_eq_true equal]
            exact ⟨parsed,loaded,rfl,rfl,covered⟩
          · cases made
            exact ⟨parsed,loaded,rfl,rfl,covered⟩

theorem fromElf_inside : Inside (fromElf cache file expected observed maps) := by
  simp only [fromElf]
  split
  · exact inside_refuse _
  · apply Inside.bind (parse_inside file)
    rintro ⟨headers,buildId⟩ parsed
    dsimp only
    split
    · exact inside_refuse _
    · split
      · exact inside_refuse _
      · apply Inside.bind (loadLoop_inside (parse_checked parsed))
        intro loads _
        split
        · exact inside_refuse _
        · apply Inside.bind mergeLoop_inside
          intro merged _
          split <;> exact inside_ok _

end Result

section Segments

variable {file : File} {expected : Identity} {maps : List Mapping} {image : Image} {headers : List ProgramHeader}
  {loads : Loads} {h : ProgramHeader} {a n : UInt64}

/-- Segments in order, without a common address. -/
def Ordered (segments : List Segment) : Prop :=
  segments.Pairwise fun s t => s.liveBegin.toNat + s.bytes.length ≤ t.liveBegin.toNat

theorem Verified.mem_iff (verified : Verified file expected maps image headers loads) {segment : Segment} :
    segment ∈ image.segments ↔ ∃ h, Executable headers h ∧ segment = segmentOf file expected h := by
  rw [verified.segments,List.mem_mergeSort,verified.loaded.segments,List.mem_map]
  constructor
  · rintro ⟨h,member,rfl⟩
    obtain ⟨mem,exec⟩ := List.mem_filter.mp member
    obtain ⟨load,flag,backed⟩ := of_decide_eq_true exec
    exact ⟨h,⟨mem,load,flag,backed⟩,rfl⟩
  · rintro ⟨h,⟨mem,load,flag,backed⟩,rfl⟩
    exact ⟨h,List.mem_filter.mpr ⟨mem,decide_eq_true ⟨load,flag,backed⟩⟩,rfl⟩

/-- The numbers of an executable segment. -/
structure Sized (file : File) (expected : Identity) (h : ProgramHeader) : Prop where
  begin : (segmentOf file expected h).liveBegin.toNat = loadAddress expected h
  length : (segmentOf file expected h).bytes.length = h.filesz.toNat
  positive : 0 < h.filesz.toNat
  le : h.filesz.toNat ≤ h.memsz.toNat
  room : loadAddress expected h + h.memsz.toNat < 2 ^ 64
  inFile : h.offset.toNat + h.filesz.toNat ≤ file.bytes.length

theorem Verified.sized (verified : Verified file expected maps image headers loads) (exec : Executable headers h) :
    Sized file expected h := by
  have checked := parse_checked verified.parsed h exec.mem
  have placed := verified.loaded.placed h exec.mem exec.load
  have room := placed.room
  have le := checked.load exec.load
  have backed := checked.backed
  have positive : h.filesz.toNat ≠ 0 := fun zero => exec.backed (UInt64.toNat_inj.mp zero)
  refine ⟨?_,?_,by omega,le,room,backed⟩
  · simp only [loadAddress] at room ⊢
    exact toNat_add_of_lt (by omega)
  · simp only [segmentOf,List.length_take,List.length_drop]
    omega

theorem Verified.ordered (verified : Verified file expected maps image headers loads) : Ordered image.segments := by
  have sized : ∀ h ∈ headers.filter isExecutable, Sized file expected h := by
    intro h member
    obtain ⟨mem,exec⟩ := List.mem_filter.mp member
    obtain ⟨load,flag,backed⟩ := of_decide_eq_true exec
    exact verified.sized ⟨mem,load,flag,backed⟩
  -- an executable segment lies within the range of its load segment
  have apart : (headers.filter isExecutable).Pairwise fun h h' => Apart (rangeOf expected h) (rangeOf expected h') := by
    have all := verified.loaded.apart
    rw [verified.loaded.loadRanges,List.pairwise_map] at all
    have sub : headers.filter isExecutable = (headers.filter isLoad).filter isExecutable := by
      rw [List.filter_filter]
      apply List.filter_congr
      intro h member
      by_cases exec : isExecutable h = true
      · have size := sized h (List.mem_filter.mpr ⟨member,exec⟩)
        have some : h.memsz ≠ 0 := by
          rintro zero
          have le := size.le
          have positive := size.positive
          rw [zero] at le
          have none : (0 : UInt64).toNat = 0 := rfl
          omega
        have load := (of_decide_eq_true exec).1
        simp [exec,isLoad,load,some]
      · simp [exec]
    rw [sub]
    exact all.filter _
  have disjoint : (loads.segments.Pairwise fun s t => s.liveBegin.toNat + s.bytes.length ≤ t.liveBegin.toNat ∨
      t.liveBegin.toNat + t.bytes.length ≤ s.liveBegin.toNat) := by
    rw [verified.loaded.segments,List.pairwise_map]
    refine List.Pairwise.imp_of_mem ?_ apart
    intro h h' member member' clear
    have size := sized h member
    have size' := sized h' member'
    rw [size.begin,size.length,size'.begin,size'.length]
    have room := size.room
    have room' := size'.room
    have le := size.le
    have le' := size'.le
    obtain ⟨begin,limit⟩ := rangeOf_toNat room
    obtain ⟨begin',limit'⟩ := rangeOf_toNat room'
    rw [Apart,begin,limit,begin',limit'] at clear
    omega
  have sorted := @List.pairwise_mergeSort _ (fun s t : Segment => s.liveBegin ≤ t.liveBegin)
    (fun s t u first second => by
      simp only [decide_eq_true_eq,UInt64.le_iff_toNat_le] at *
      omega)
    (fun s t => by
      simp only [Bool.or_eq_true,decide_eq_true_eq,UInt64.le_iff_toNat_le]
      omega) loads.segments
  have shuffled := (List.mergeSort_perm loads.segments fun s t => s.liveBegin ≤ t.liveBegin).symm.pairwise disjoint
    (fun clear => clear.symm)
  rw [Ordered,verified.segments]
  refine (List.Pairwise.and sorted shuffled).imp_of_mem ?_
  rintro s t member member' ⟨order,clear⟩
  rw [← verified.segments,verified.mem_iff] at member member'
  obtain ⟨h,exec,rfl⟩ := member
  obtain ⟨h',exec',rfl⟩ := member'
  have size := verified.sized exec
  have size' := verified.sized exec'
  have positive := size.positive
  have positive' := size'.positive
  have order' := UInt64.le_iff_toNat_le.mp (of_decide_eq_true order)
  rw [size.begin,size'.begin] at order'
  rw [size.begin,size.length,size'.begin,size'.length] at clear
  rw [size.begin,size.length,size'.begin]
  omega

theorem Sized.holds_iff (sized : Sized file expected h) :
    (segmentOf file expected h).holds a n = true ↔ InFile expected h a n := by
  have room := sized.room
  have le := sized.le
  have top := h.filesz.toNat_lt
  have size : (UInt64.ofNat (segmentOf file expected h).bytes.length).toNat = h.filesz.toNat := by
    rw [sized.length,UInt64.toNat_ofNat']
    omega
  simp only [Segment.holds,Bool.and_eq_true,decide_eq_true_eq,UInt64.le_iff_toNat_le,sized.begin,InFile]
  constructor
  · rintro ⟨above,fits⟩
    have bound := fits_iff.mp fits
    rw [UInt64.toNat_sub_of_le _ _ (UInt64.le_iff_toNat_le.mpr (sized.begin ▸ above)),sized.begin,size] at bound
    exact ⟨above,by omega⟩
  · rintro ⟨above,below⟩
    refine ⟨above,fits_iff.mpr ?_⟩
    rw [UInt64.toNat_sub_of_le _ _ (UInt64.le_iff_toNat_le.mpr (sized.begin ▸ above)),sized.begin,size]
    omega

/-- The bytes of a segment are the file's. -/
theorem Sized.slice (sized : Sized file expected h) (inside : InFile expected h a n) :
    ((segmentOf file expected h).bytes.drop (a - (segmentOf file expected h).liveBegin).toNat).take n.toNat =
      (file.bytes.drop (h.offset.toNat + (a.toNat - loadAddress expected h))).take n.toNat := by
  obtain ⟨above,below⟩ := inside
  rw [UInt64.toNat_sub_of_le _ _ (UInt64.le_iff_toNat_le.mpr (sized.begin ▸ above)),sized.begin]
  simp only [segmentOf,List.drop_take,List.take_take,List.drop_drop]
  congr 1
  omega

/-- Only one segment holds a byte. -/
theorem Ordered.unique {segments : List Segment} (ordered : Ordered segments) {s t : Segment} (member : s ∈ segments)
    (member' : t ∈ segments) {a : Nat} (inside : s.liveBegin.toNat ≤ a ∧ a < s.liveBegin.toNat + s.bytes.length)
    (inside' : t.liveBegin.toNat ≤ a ∧ a < t.liveBegin.toNat + t.bytes.length) : s = t := by
  induction ordered with
  | nil => cases member
  | cons first _ ih =>
    rcases List.mem_cons.mp member with rfl | later
    · rcases List.mem_cons.mp member' with rfl | later'
      · rfl
      · have := first t later'
        omega
    · rcases List.mem_cons.mp member' with rfl | later'
      · have := first s later
        omega
      · exact ih later later'

theorem Verified.read_iff (verified : Verified file expected maps image headers loads) {bytes : List UInt8} :
    image.read a true n = some bytes ↔ 0 < n.toNat ∧ ∃ h, Executable headers h ∧ InFile expected h a n ∧
      bytes = (file.bytes.drop (h.offset.toNat + (a.toNat - loadAddress expected h))).take n.toNat := by
  simp only [Image.read,Bool.not_true,Bool.false_or]
  constructor
  · intro made
    split at made
    · cases made
    · rename_i executable
      split at made
      · cases made
      · rename_i segment found
        cases made
        obtain ⟨h,exec,rfl⟩ := verified.mem_iff.mp (List.mem_of_find?_eq_some found)
        have sized := verified.sized exec
        have holds := List.find?_some found
        have inside := sized.holds_iff.mp holds
        have some : n ≠ 0 := by
          rintro rfl
          simp [Image.executable] at executable
        refine ⟨?_,h,exec,inside,sized.slice inside⟩
        exact Nat.pos_of_ne_zero fun zero => some (UInt64.toNat_inj.mp zero)
  · rintro ⟨positive,h,exec,inside,rfl⟩
    have sized := verified.sized exec
    have room := sized.room
    have le := sized.le
    obtain ⟨above,below⟩ := inside
    have member := verified.mem_iff.mpr ⟨h,exec,rfl⟩
    have holds := sized.holds_iff.mpr ⟨above,below⟩
    have executable : image.executable a n = true := by
      have some : n ≠ 0 := by
        rintro rfl
        cases positive
      have whole : fits a n maximum = true := fits_iff.mpr (by
        have top : maximum.toNat = 2 ^ 64 - 1 := rfl
        omega)
      simp only [Image.executable,some,whole,Bool.not_true,Bool.false_eq_true,or_self,if_false]
      exact List.any_eq_true.mpr ⟨_,member,holds⟩
    simp only [executable,Bool.not_true,Bool.false_eq_true,if_false]
    split
    · rename_i none
      exact absurd holds (by simpa using List.find?_eq_none.mp none _ member)
    · rename_i segment found
      obtain ⟨h',exec',rfl⟩ := verified.mem_iff.mp (List.mem_of_find?_eq_some found)
      have sized' := verified.sized exec'
      have holds' := List.find?_some found
      have inside' := sized'.holds_iff.mp holds'
      have same : segmentOf file expected h' = segmentOf file expected h := by
        refine verified.ordered.unique (List.mem_of_find?_eq_some found) member (a := a.toNat) ?_ ?_
        · rw [sized'.begin,sized'.length]
          exact ⟨inside'.1,by have := inside'.2; omega⟩
        · rw [sized.begin,sized.length]
          exact ⟨above,by omega⟩
      rw [same,sized.slice ⟨above,below⟩]

theorem Verified.mapped_readable (verified : Verified file expected maps image headers loads)
    (mapped : image.mapped a n = true) :
    0 < n.toNat ∧ ∀ i < n.toNat, Readable headers expected maps (a.toNat + i) := by
  simp only [Image.mapped] at mapped
  split at mapped
  · cases mapped
  · rename_i some
    simp only [not_or] at some
    obtain ⟨range,member,inside⟩ := List.any_eq_true.mp mapped
    simp only [Bool.and_eq_true,decide_eq_true_eq,UInt64.le_iff_toNat_le,UInt64.lt_iff_toNat_lt] at inside
    obtain ⟨⟨above,below⟩,long⟩ := inside
    rw [UInt64.toNat_sub_of_le _ _ (UInt64.le_of_lt (UInt64.lt_iff_toNat_lt.mpr below))] at long
    refine ⟨Nat.pos_of_ne_zero fun zero => some.1 (UInt64.toNat_inj.mp zero),fun i lt => ?_⟩
    obtain ⟨part,found,above',below'⟩ := verified.covered range member (a.toNat + i) (by omega) (by omega)
    rw [verified.loaded.ranges,List.mem_flatMap] at found
    obtain ⟨h,filtered,found⟩ := found
    obtain ⟨mem,readable⟩ := List.mem_filter.mp filtered
    obtain ⟨load,flag⟩ := of_decide_eq_true readable
    have checked := parse_checked verified.parsed h mem
    have placed := verified.loaded.placed h mem load
    exact readableParts_readable mem load flag placed.room (checked.load load) found above' below'

end Segments

/-- Whatever the file, the identities and the mappings are, parsing stays inside the file, and an image
that is returned shows the file's own bytes, backed by its own mappings, and its own readable data. -/
theorem image_faithful (cache : List Image) (file : File) (expected observed : Identity) (maps : List Mapping) :
    parse file ≠ .error .outside ∧ fromElf cache file expected observed maps ≠ .error .outside ∧
    ∀ image cache', fromElf cache file expected observed maps = .ok (image,cache') →
      image.identity = expected ∧ observed = expected ∧ Ordered image.segments ∧
      ∃ headers, parse file = .ok (headers,expected.buildId) ∧
        (∀ segment, segment ∈ image.segments ↔ ∃ h, Executable headers h ∧ segment = segmentOf file expected h) ∧
        (∀ a n, (∃ bytes, image.read a true n = some bytes) ↔
          0 < n.toNat ∧ ∃ h, Executable headers h ∧ InFile expected h a n) ∧
        (∀ a n bytes h, image.read a true n = some bytes → Executable headers h → InFile expected h a n →
          bytes = (file.bytes.drop (h.offset.toNat + (a.toNat - loadAddress expected h))).take n.toNat) ∧
        (∀ h, Executable headers h → ∀ k < h.filesz.toNat,
          Backed expected maps (loadAddress expected h + k) (h.offset.toNat + k)) ∧
        (∀ a n, image.mapped a n = true → 0 < n.toNat ∧ ∀ i < n.toNat, Readable headers expected maps (a.toNat + i)) := by
  refine ⟨parse_inside file,fromElf_inside,fun image cache' made => ?_⟩
  obtain ⟨identical,headers,loads,verified⟩ := fromElf_verified made
  refine ⟨verified.identity,identical,verified.ordered,headers,verified.parsed,fun segment => verified.mem_iff,?_,?_,?_,?_⟩
  · intro a n
    constructor
    · rintro ⟨bytes,read⟩
      obtain ⟨positive,h,exec,inside,_⟩ := verified.read_iff.mp read
      exact ⟨positive,h,exec,inside⟩
    · rintro ⟨positive,h,exec,inside⟩
      exact ⟨_,verified.read_iff.mpr ⟨positive,h,exec,inside,rfl⟩⟩
  · intro a n bytes h read exec inside
    have positive := (verified.read_iff.mp read).1
    have again := verified.read_iff.mpr ⟨positive,h,exec,inside,rfl⟩
    rw [read] at again
    exact Option.some.inj again
  · intro h exec k lt
    exact (verified.loaded.placed h exec.mem exec.load).backed k lt
  · intro a n mapped
    exact verified.mapped_readable mapped

section Smallest

/-- An ELF file with one executable segment and a build id. -/
def smallElf : File where
  bytes := [
    127,69,76,70,2,1,1,0,0,0,0,0,0,0,0,0,3,0,62,0,1,0,0,0,0,0,0,0,
    0,0,0,0,64,0,0,0,0,0,0,0,0,0,0,0,0,0,0,0,0,0,0,0,64,0,56,0,
    2,0,0,0,0,0,0,0,1,0,0,0,5,0,0,0,0,0,0,0,0,0,0,0,0,0,0,0,
    0,0,0,0,0,0,0,0,0,0,0,0,196,0,0,0,0,0,0,0,196,0,0,0,0,0,0,0,
    0,16,0,0,0,0,0,0,4,0,0,0,4,0,0,0,176,0,0,0,0,0,0,0,176,0,0,0,
    0,0,0,0,0,0,0,0,0,0,0,0,20,0,0,0,0,0,0,0,20,0,0,0,0,0,0,0,
    4,0,0,0,0,0,0,0,4,0,0,0,4,0,0,0,3,0,0,0,71,78,85,0,1,2,3,4]
  small := by decide +kernel

def smallIdentity : Identity := ⟨8,9,0x400000,"01020304"⟩

def smallMapping : Mapping := ⟨0x400000,0x401000,0,8,9,true⟩

def smallHeader : ProgramHeader := ⟨1,5,0,0,196,196,4096⟩

def smallImage : Image where
  identity := smallIdentity
  segments := [⟨0x400000,smallElf.bytes⟩]
  readable := [⟨0x400000,0x4000C4⟩]

theorem smallElf_parsed : parse smallElf = .ok ([smallHeader,⟨4,4,176,176,20,20,4⟩],"01020304") := by
  decide +kernel

theorem smallElf_verified : fromElf [] smallElf smallIdentity smallIdentity [smallMapping] =
    .ok (smallImage,[smallImage]) := by
  decide +kernel

/-- A read of no bytes is refused, though they lie in the segment. -/
theorem empty_read_refused :
    fromElf [] smallElf smallIdentity smallIdentity [smallMapping] = .ok (smallImage,[smallImage]) ∧
    InFile smallIdentity smallHeader 0x400000 0 ∧
    Executable [smallHeader,⟨4,4,176,176,20,20,4⟩] smallHeader ∧
    parse smallElf = .ok ([smallHeader,⟨4,4,176,176,20,20,4⟩],"01020304") ∧
    smallImage.read 0x400000 true 0 = none :=
  ⟨smallElf_verified,by decide,⟨by decide,rfl,by decide,by decide⟩,smallElf_parsed,by decide⟩

/-- The last four bytes of the segment can be read. -/
theorem smallImage_faithful : Ordered smallImage.segments ∧
    ∃ bytes, smallImage.read 0x4000C0 true 4 = some bytes := by
  obtain ⟨_,_,ordered,headers,parsed,_,reads,_⟩ :=
    (image_faithful [] smallElf smallIdentity smallIdentity [smallMapping]).2.2 _ _ smallElf_verified
  rw [smallElf_parsed] at parsed
  cases parsed
  exact ⟨ordered,(reads 0x4000C0 4).mpr
    ⟨by decide,smallHeader,⟨by decide,rfl,by decide,by decide⟩,by decide⟩⟩

end Smallest

end S2Script.OriginalModule
