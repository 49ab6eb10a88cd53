import S2Script.EngineCopyCapture

/-! What a capture reads and when it succeeds. -/
namespace S2Script.EngineCopyArena

namespace Reader

variable (reader : Reader)

@[simp] theorem length_bytes (address n : Nat) : (reader.bytes address n).length = n := by
  simp [bytes]

theorem bytes_add (address n m : Nat) : reader.bytes address (n + m) = reader.bytes address n ++ reader.bytes (address + n) m := by
  simp [bytes,List.range_add,Nat.add_assoc]

theorem take_bytes (address n : Nat) {m : Nat} (inside : m ≤ n) : (reader.bytes address n).take m = reader.bytes address m := by
  simp [bytes,← List.map_take,List.take_range,Nat.min_eq_left inside]

/-- Where the first zero of some bytes is. -/
theorem findIdx_bytes_some {address received n : Nat} (found : (reader.bytes address received).findIdx? (· = 0) = some n) :
    n < received ∧ reader.memory (address + n) = 0 ∧ ∀ m < n, reader.memory (address + m) ≠ 0 := by
  obtain ⟨inside,zero,others⟩ := List.findIdx?_eq_some_iff_getElem.mp found
  rw [length_bytes] at inside
  refine ⟨inside,by simpa [bytes] using zero,fun m less => ?_⟩
  have other := others m less
  simpa [bytes] using other

theorem findIdx_bytes_none {address received : Nat} (missing : (reader.bytes address received).findIdx? (· = 0) = none) :
    ∀ m < received, reader.memory (address + m) ≠ 0 := by
  intro m less
  have other := List.findIdx?_eq_none_iff.mp missing (reader.memory (address + m))
    (List.mem_map.mpr ⟨m,List.mem_range.mpr less,rfl⟩)
  simpa using other

/-- The chunks of a range: where each starts. -/
def walk (source limit : Nat) : Nat → Nat
  | 0 => 0
  | k + 1 => walk source limit k + reader.count (source + walk source limit k) (limit - walk source limit k)

/-- The size of a chunk. -/
def chunk (source limit k : Nat) : Nat := reader.count (source + reader.walk source limit k) (limit - reader.walk source limit k)

theorem walk_succ (source limit k : Nat) : reader.walk source limit (k + 1) = reader.walk source limit k + reader.chunk source limit k := rfl

theorem walk_mono (source limit : Nat) {k j : Nat} (le : k ≤ j) : reader.walk source limit k ≤ reader.walk source limit j := by
  induction j with
  | zero => rw [Nat.le_zero.mp le]
  | succ j ih =>
    rcases Nat.le_succ_iff.mp le with earlier | rfl
    · exact Nat.le_trans (ih earlier) (Nat.le_add_right _ _)
    · exact Nat.le_refl _

theorem walk_le (source limit k : Nat) : reader.walk source limit k ≤ limit := by
  induction k with
  | zero => exact Nat.zero_le _
  | succ k ih =>
    rw [walk_succ,chunk,count]
    omega

theorem chunk_pos (pages : reader.pageSize ≠ 0) {source limit k : Nat} (reading : reader.walk source limit k < limit) :
    0 < reader.chunk source limit k :=
  reader.count_pos pages _ _ (by omega)

/-- No chunk crosses the end of its page. -/
theorem chunk_page (pages : reader.pageSize ≠ 0) {source limit k : Nat} (reading : reader.walk source limit k < limit) :
    (source + reader.walk source limit k + reader.chunk source limit k - 1) / reader.pageSize =
      (source + reader.walk source limit k) / reader.pageSize := by
  have positive := reader.chunk_pos pages reading
  have small : reader.chunk source limit k ≤ reader.room (source + reader.walk source limit k) := by
    rw [chunk,count]
    omega
  generalize source + reader.walk source limit k = address at *
  have split := Nat.div_add_mod address reader.pageSize
  have rest := Nat.mod_lt address (Nat.pos_of_ne_zero pages)
  rw [room] at small
  apply Nat.div_eq_of_lt_le
  · rw [Nat.mul_comm]
    omega
  · rw [Nat.succ_mul,Nat.mul_comm]
    omega

/-- The first NUL at or after an address. -/
structure FirstNul (source last : Nat) : Prop where
  after : source ≤ last
  zero : reader.memory last = 0
  first : ∀ a, source ≤ a → a < last → reader.memory a ≠ 0

/-- From one chunk on, each chunk that starts at or before the last byte comes with its bytes up to that one,
and with no more than its size. -/
def Delivers (source limit calls first last : Nat) : Prop :=
  ∀ k, first ≤ k → reader.walk source limit k < limit → source + reader.walk source limit k ≤ last →
    min (reader.chunk source limit k) (last + 1 - (source + reader.walk source limit k)) ≤
        reader.delivers (calls + k) (source + reader.walk source limit k) (reader.chunk source limit k) ∧
      reader.delivers (calls + k) (source + reader.walk source limit k) (reader.chunk source limit k) ≤ reader.chunk source limit k

/-- From one chunk on, all of the range comes. -/
def DeliversAll (source limit calls first : Nat) : Prop :=
  ∀ k, first ≤ k → reader.walk source limit k < limit →
    reader.delivers (calls + k) (source + reader.walk source limit k) (reader.chunk source limit k) = reader.chunk source limit k

variable {reader}

theorem FirstNul.unique {source last other : Nat} (first : reader.FirstNul source last) (second : reader.FirstNul source other) : last = other := by
  rcases Nat.lt_trichotomy last other with less | same | more
  · exact absurd first.zero (second.first last first.after less)
  · exact same
  · exact absurd second.zero (first.first other second.after more)

/-- Without a NUL before an address, the first one is not before it. -/
theorem FirstNul.le {source last address : Nat} (nul : reader.FirstNul source last)
    (before : ∀ a, source ≤ a → a < address → reader.memory a ≠ 0) : address ≤ last := by
  by_contra less
  exact before last nul.after (by omega) nul.zero

theorem Delivers.later {source limit calls first later last : Nat} (delivers : reader.Delivers source limit calls first last)
    (le : first ≤ later) : reader.Delivers source limit calls later last :=
  fun k from_ => delivers k (Nat.le_trans le from_)

end Reader

section Strings

variable {reader : Reader}

theorem valid_string {bytes : List UInt8} (short : bytes.length ≤ MaxString) :
    (Value.Valid ⟨.string,bytes⟩) = canonical bytes.length bytes := by
  simp [Value.Valid,short]

/-- What a captured string is. -/
def Reader.captured (reader : Reader) (block : Block) (source last : Nat) : Block :=
  { block with data := reader.bytes source (last - source + 1),length := last - source }

/-- The loop from a chunk on succeeds when the rest of the string comes and its bytes are valid, and only then. -/
theorem captureLoop_string (pages : reader.pageSize ≠ 0) (block : Block) (kind : block.kind = .string) (source calls k : Nat)
    (copied : block.data = reader.bytes source (reader.walk source block.kind.limit k))
    (before : ∀ a, source ≤ a → a < source + reader.walk source block.kind.limit k → reader.memory a ≠ 0) (result : Block) :
    (captureLoop reader pages block source (calls + k) (reader.walk source block.kind.limit k)).2 = .ok result ↔
      ∃ last, reader.FirstNul source last ∧ last < source + block.kind.limit ∧ reader.Delivers source block.kind.limit calls k last ∧
        canonical (last - source) (reader.bytes source (last - source)) = true ∧ result = reader.captured block source last := by
  induction size : block.kind.limit - reader.walk source block.kind.limit k using Nat.strongRecOn generalizing k block with
  | ind n ih =>
    have walked := reader.walk_le source block.kind.limit k
    rw [captureLoop]
    split
    · next reading =>
      have positive := reader.chunk_pos pages reading
      have chunk : reader.count (source + reader.walk source block.kind.limit k) (block.kind.limit - reader.walk source block.kind.limit k) =
        reader.chunk source block.kind.limit k := rfl
      have next := reader.walk_succ source block.kind.limit k
      have nextLe := reader.walk_le source block.kind.limit (k + 1)
      simp only [request,chunk]
      -- the first NUL, when the whole string comes, is where this chunk starts or later
      have start : ∀ {last}, reader.FirstNul source last → source + reader.walk source block.kind.limit k ≤ last := fun nul => nul.le before
      split
      · next refused =>
        refine iff_of_false (fun same => by cases same) ?_
        rintro ⟨last,nul,_,delivers,_⟩
        have here := delivers k (Nat.le_refl k) reading (start nul)
        have after := start nul
        omega
      next accepted =>
      simp only [not_or,Nat.not_lt] at accepted
      split
      · next n found =>
        obtain ⟨inside,zero,others⟩ := reader.findIdx_bytes_some found
        have nul : reader.FirstNul source (source + reader.walk source block.kind.limit k + n) := by
          refine ⟨by omega,zero,fun a low high => ?_⟩
          rcases Nat.lt_or_ge a (source + reader.walk source block.kind.limit k) with old | new
          · exact before a low old
          · have other := others (a - (source + reader.walk source block.kind.limit k)) (by omega)
            rwa [Nat.add_sub_cancel' new] at other
        have length : source + reader.walk source block.kind.limit k + n - source = reader.walk source block.kind.limit k + n := by omega
        have short : reader.walk source block.kind.limit k + n ≤ MaxString := by
          have limit : block.kind.limit = MaxString + 1 := by rw [kind]; rfl
          omega
        have whole : block.data ++ (reader.bytes (source + reader.walk source block.kind.limit k)
            (reader.delivers (calls + k) (source + reader.walk source block.kind.limit k) (reader.chunk source block.kind.limit k))).take (n + 1) =
            reader.bytes source (reader.walk source block.kind.limit k + n + 1) := by
          rw [copied,reader.take_bytes _ _ inside,Nat.add_assoc,reader.bytes_add]
        have delivers : reader.Delivers source block.kind.limit calls k (source + reader.walk source block.kind.limit k + n) := by
          intro j from_ _ starts
          rcases Nat.eq_or_lt_of_le from_ with rfl | later
          · omega
          · have passed := reader.walk_mono source block.kind.limit (show k + 1 ≤ j from later)
            omega
        have content : Block.content { block with data := reader.bytes source (reader.walk source block.kind.limit k + n + 1),length := reader.walk source block.kind.limit k + n } =
            ⟨.string,reader.bytes source (reader.walk source block.kind.limit k + n)⟩ := by
          rw [Block.content,kind,reader.take_bytes _ _ (Nat.le_succ _)]
        rw [whole,content,valid_string (by rw [reader.length_bytes]; exact short),reader.length_bytes]
        have captured : reader.captured block source (source + reader.walk source block.kind.limit k + n) =
            { block with data := reader.bytes source (reader.walk source block.kind.limit k + n + 1),length := reader.walk source block.kind.limit k + n } := by
          rw [Reader.captured,length]
        constructor
        · intro same
          split at same
          · next valid =>
            cases same
            exact ⟨_,nul,by omega,delivers,by rw [length]; exact valid,captured.symm⟩
          · cases same
        · rintro ⟨last,first,_,_,valid,rfl⟩
          obtain rfl := first.unique nul
          rw [length] at valid
          rw [if_pos valid,captured]
      · next missing =>
        have none := reader.findIdx_bytes_none missing
        split
        · next cut =>
          refine iff_of_false (fun same => by cases same) ?_
          rintro ⟨last,nul,_,delivers,_⟩
          have here := delivers k (Nat.le_refl k) reading (start nul)
          have after := start nul
          have past : ¬last < source + reader.walk source block.kind.limit k +
              reader.delivers (calls + k) (source + reader.walk source block.kind.limit k) (reader.chunk source block.kind.limit k) := by
            intro inside
            have other := none (last - (source + reader.walk source block.kind.limit k)) (by omega)
            rw [Nat.add_sub_cancel' after] at other
            exact other nul.zero
          omega
        · next complete =>
          rw [Decidable.not_not] at complete
          have passed : ∀ a, source ≤ a → a < source + reader.walk source block.kind.limit (k + 1) → reader.memory a ≠ 0 := by
            intro a low high
            rcases Nat.lt_or_ge a (source + reader.walk source block.kind.limit k) with old | new
            · exact before a low old
            · have other := none (a - (source + reader.walk source block.kind.limit k)) (by omega)
              rwa [Nat.add_sub_cancel' new] at other
          have grown : block.data ++ reader.bytes (source + reader.walk source block.kind.limit k) (reader.chunk source block.kind.limit k) =
              reader.bytes source (reader.walk source block.kind.limit (k + 1)) := by
            rw [copied,next,reader.bytes_add]
          have rest := ih (block.kind.limit - reader.walk source block.kind.limit (k + 1)) (by omega)
            { block with data := reader.bytes source (reader.walk source block.kind.limit (k + 1)) } kind (k + 1) rfl passed rfl
          rw [complete,grown]
          refine rest.trans (exists_congr fun last => and_congr_right fun nul => and_congr_right fun _ => and_congr_left fun _ => ?_)
          refine ⟨fun delivers j from_ here starts => ?_,fun delivers => delivers.later (Nat.le_succ k)⟩
          rcases Nat.eq_or_lt_of_le from_ with rfl | later
          · omega
          · exact delivers j later here starts
    · next ended =>
      refine iff_of_false (fun same => by cases same) ?_
      rintro ⟨last,nul,inside,_⟩
      have after := nul.le before
      omega

/-- Each read is for a chunk, and one that starts at or before the first NUL. -/
theorem captureLoop_requests (pages : reader.pageSize ≠ 0) (block : Block) (source calls k : Nat)
    (before : block.kind = .string → ∀ a, source ≤ a → a < source + reader.walk source block.kind.limit k → reader.memory a ≠ 0) :
    ∀ asked ∈ (captureLoop reader pages block source (calls + k) (reader.walk source block.kind.limit k)).1,
      ∃ j, reader.walk source block.kind.limit j < block.kind.limit ∧
        asked = ⟨source + reader.walk source block.kind.limit j,reader.chunk source block.kind.limit j⟩ ∧
        (block.kind = .string → ∀ last, reader.FirstNul source last → asked.address ≤ last) := by
  induction size : block.kind.limit - reader.walk source block.kind.limit k using Nat.strongRecOn generalizing k block with
  | ind n ih =>
    rw [captureLoop]
    split
    · next reading =>
      have positive := reader.chunk_pos pages reading
      have chunk : reader.count (source + reader.walk source block.kind.limit k) (block.kind.limit - reader.walk source block.kind.limit k) =
        reader.chunk source block.kind.limit k := rfl
      have next := reader.walk_succ source block.kind.limit k
      simp only [request,chunk]
      refine List.forall_mem_cons.mpr ⟨⟨k,reading,rfl,fun kind last nul => nul.le (before kind)⟩,?_⟩
      split
      · exact fun _ none => by cases none
      split
      · split <;> exact fun _ none => by cases none
      next missing =>
      split
      · exact fun _ none => by cases none
      next complete =>
      rw [Decidable.not_not] at complete
      refine ih (block.kind.limit - reader.walk source block.kind.limit (k + 1)) (by omega)
        { block with data := block.data ++ _ } (k + 1) (fun kind a low high => ?_) rfl
      have isString : block.kind = .string := kind
      rw [if_pos isString,complete] at missing
      have none := reader.findIdx_bytes_none missing
      rcases Nat.lt_or_ge a (source + reader.walk source block.kind.limit k) with old | new
      · exact before isString a low old
      · have high' : a < source + reader.walk source block.kind.limit (k + 1) := high
        have other := none (a - (source + reader.walk source block.kind.limit k)) (by omega)
        rwa [Nat.add_sub_cancel' new] at other
    · split
      · exact fun _ none => by cases none
      · simp only
        split <;> exact fun _ none => by cases none

end Strings

section Vectors

variable {reader : Reader}

/-- The loop of a vector succeeds when all of it comes and is finite, and only then. -/
theorem captureLoop_vector (pages : reader.pageSize ≠ 0) (block : Block) (kind : block.kind = .vector) (source calls k : Nat)
    (copied : block.data = reader.bytes source (reader.walk source block.kind.limit k)) (result : Block) :
    (captureLoop reader pages block source (calls + k) (reader.walk source block.kind.limit k)).2 = .ok result ↔
      reader.DeliversAll source block.kind.limit calls k ∧ (Value.Valid ⟨.vector,reader.bytes source 12⟩) = true ∧
        result = { block with data := reader.bytes source 12,length := 12 } := by
  have limit : block.kind.limit = 12 := by rw [kind]; rfl
  have noString : ¬block.kind = .string := by rw [kind]; decide
  induction size : block.kind.limit - reader.walk source block.kind.limit k using Nat.strongRecOn generalizing k block with
  | ind n ih =>
    have walked := reader.walk_le source block.kind.limit k
    rw [captureLoop]
    split
    · next reading =>
      have positive := reader.chunk_pos pages reading
      have chunk : reader.count (source + reader.walk source block.kind.limit k) (block.kind.limit - reader.walk source block.kind.limit k) =
        reader.chunk source block.kind.limit k := rfl
      have next := reader.walk_succ source block.kind.limit k
      simp only [request,chunk]
      split
      · next refused =>
        refine iff_of_false (fun same => nomatch same) fun all => ?_
        have here := all.1 k (Nat.le_refl k) reading
        omega
      split
      · next cut => exact iff_of_false (fun same => nomatch same) fun all => cut (all.1 k (Nat.le_refl k) reading)
      next complete =>
      rw [Decidable.not_not] at complete
      have grown : block.data ++ reader.bytes (source + reader.walk source block.kind.limit k) (reader.chunk source block.kind.limit k) =
          reader.bytes source (reader.walk source block.kind.limit (k + 1)) := by
        rw [copied,next,reader.bytes_add]
      have rest := ih (block.kind.limit - reader.walk source block.kind.limit (k + 1)) (by omega)
        { block with data := reader.bytes source (reader.walk source block.kind.limit (k + 1)) } kind (k + 1) rfl limit noString rfl
      rw [complete,grown]
      refine rest.trans (and_congr_left fun _ => ⟨fun all j from_ here => ?_,fun all j from_ => all j (Nat.le_trans (Nat.le_succ k) from_)⟩)
      rcases Nat.eq_or_lt_of_le from_ with rfl | later
      · exact complete
      · exact all j later here
    · next ended =>
      have full : reader.walk source block.kind.limit k = 12 := by omega
      have content : Block.content { block with length := 12 } = ⟨.vector,reader.bytes source 12⟩ := by
        rw [Block.content,kind,copied,full,reader.take_bytes _ _ (Nat.le_refl _)]
      have nothing : reader.DeliversAll source block.kind.limit calls k := by
        intro j from_ here
        have passed := reader.walk_mono source block.kind.limit from_
        omega
      simp only
      rw [content]
      have captured : { block with length := 12 } = { block with data := reader.bytes source 12,length := 12 } := by
        rw [← full,← copied]
      split
      · next valid => exact ⟨fun same => ⟨nothing,valid,(Except.ok.inj same).symm.trans captured⟩,fun all => by rw [all.2.2,captured]⟩
      · next invalid => exact iff_of_false (fun same => nomatch same) fun all => invalid all.2.1

end Vectors

section Indirect

variable {reader : Reader}

theorem count_word {address remaining : Nat} (short : remaining ≤ Word) :
    min remaining (reader.room address) = reader.count address remaining := by
  simp only [Reader.count,ScratchSize]
  simp only [Word] at short
  omega

/-- The reads of the word from a chunk on: how many there are, and what they give. -/
theorem readWord_spec (pages : reader.pageSize ≠ 0) (object calls k : Nat) {word : List UInt8}
    (copied : word = reader.bytes object (reader.walk object Word k)) :
    (∀ asked ∈ (readWord reader pages object (calls + k) (reader.walk object Word k) word).1,
        ∃ j, reader.walk object Word j < Word ∧ asked = ⟨object + reader.walk object Word j,reader.chunk object Word j⟩) ∧
      (reader.DeliversAll object Word calls k →
        (readWord reader pages object (calls + k) (reader.walk object Word k) word).2 = .ok (reader.bytes object Word) ∧
        reader.walk object Word (k + (readWord reader pages object (calls + k) (reader.walk object Word k) word).1.length) = Word) ∧
      (¬reader.DeliversAll object Word calls k →
        ∃ message, (readWord reader pages object (calls + k) (reader.walk object Word k) word).2 = .error message) := by
  induction size : Word - reader.walk object Word k using Nat.strongRecOn generalizing k word with
  | ind n ih =>
    have walked := reader.walk_le object Word k
    rw [readWord]
    split
    · next reading =>
      have positive := reader.chunk_pos pages reading
      have chunk : min (Word - reader.walk object Word k) (reader.room (object + reader.walk object Word k)) = reader.chunk object Word k :=
        count_word (Nat.sub_le _ _)
      have next := reader.walk_succ object Word k
      simp only [chunk]
      split
      · next cut =>
        refine ⟨fun asked member => ⟨k,reading,List.mem_singleton.mp member⟩,fun all => absurd (all k (Nat.le_refl k) reading) cut,fun _ => ⟨_,rfl⟩⟩
      next complete =>
      rw [Decidable.not_not] at complete
      have grown : word ++ reader.bytes (object + reader.walk object Word k) (reader.chunk object Word k) =
          reader.bytes object (reader.walk object Word (k + 1)) := by
        rw [copied,next,reader.bytes_add]
      have same : reader.DeliversAll object Word calls k ↔ reader.DeliversAll object Word calls (k + 1) := by
        refine ⟨fun all j from_ => all j (Nat.le_trans (Nat.le_succ k) from_),fun all j from_ here => ?_⟩
        rcases Nat.eq_or_lt_of_le from_ with rfl | later
        · exact complete
        · exact all j later here
      obtain ⟨requests,delivered,broken⟩ := ih (Word - reader.walk object Word (k + 1)) (by omega) (k + 1) rfl rfl
      rw [complete,grown]
      simp only [Nat.add_assoc,← next] at requests delivered broken ⊢
      refine ⟨List.forall_mem_cons.mpr ⟨⟨k,reading,rfl⟩,requests⟩,fun all => ?_,fun some => broken fun all => some (same.mpr all)⟩
      obtain ⟨read,ends⟩ := delivered (same.mp all)
      refine ⟨read,?_⟩
      rw [List.length_cons,Nat.add_comm _ 1]
      exact ends
    · next ended =>
      have full : reader.walk object Word k = Word := by omega
      refine ⟨fun _ none => (nomatch none),fun _ => ⟨?_,full⟩,fun some => absurd (fun j from_ here => ?_) some⟩
      · rw [copied,full]
      · have passed := reader.walk_mono object Word from_
        omega

theorem readWord_start (pages : reader.pageSize ≠ 0) (object calls : Nat) :
    (reader.DeliversAll object Word calls 0 →
        (readWord reader pages object calls 0 []).2 = .ok (reader.bytes object Word) ∧
        reader.walk object Word (readWord reader pages object calls 0 []).1.length = Word) ∧
      (¬reader.DeliversAll object Word calls 0 → ∃ message, (readWord reader pages object calls 0 []).2 = .error message) := by
  have spec := (readWord_spec pages object calls 0 (rfl : [] = reader.bytes object (reader.walk object Word 0))).2
  rw [Nat.zero_add] at spec
  exact spec

end Indirect

section Captures

variable {reader : Reader}

theorem capturePrepared_eq {block : Block} (ready : block.captureReady = true) (own : block.refs = 1) (source calls : Nat) :
    capturePrepared reader (some block) source calls =
      if usable : reader.usable source block.kind.limit then
        captureLoop reader usable.2.2.1 { block with captureReady := false,data := [] } source calls 0
      else ([],.error (unsupported "unavailable reader or invalid address")) := by
  simp [capturePrepared,ready,own]

/-- A reader that gives what it is asked for; a string of two bytes before the end of a page, its NUL on the next. -/
def twoPages : Reader := ⟨true,true,4096,fun a => if a = 8190 then 0x68 else if a = 8191 then 0x69 else 0,fun _ _ count => count⟩

end Captures

end S2Script.EngineCopyArena
