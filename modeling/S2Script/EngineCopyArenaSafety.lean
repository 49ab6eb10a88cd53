import S2Script.EngineCopyArenaOwners

/-! The intern arena is a canonical store: whatever batches it is given, a returned pointer keeps its
value, equal values share one, and a rejected batch leaves nothing behind. -/
namespace S2Script.EngineCopyArena

open EngineFunctionCopy (StableOwner)

variable {hash : Value → UInt64} {a : Arena} {published : List Pending} {stage : Stage}

theorem At.mono {entries entries' : List Pending} {v : Value} {offset : Nat} (found : At entries v offset)
    (grown : entries ⊆ entries') : At entries' v offset := by
  obtain ⟨p,member,here⟩ := found
  exact ⟨p,grown member,here⟩

/-- A batch has a stage with an address for every value, or is refused; no probe loop goes on forever. -/
theorem Staged.plan (holds : Holds a published) (batch : List (StableOwner × Option Value)) :
    ∀ {stage : Stage}, Staged hash published stage →
      (∃ refusal, plan hash a batch stage = .error refusal ∧ refusal ≠ .endless) ∨
        ∃ stage' values offsets, plan hash a batch stage = .ok stage' ∧ Staged hash published stage' ∧
          (∃ more, stage'.entries = stage.entries ++ more) ∧ batch.map Prod.snd = values.map some ∧
          stage'.outputs = stage.outputs ++ offsets ∧
          List.Forall₂ (At (published ++ stage'.entries)) values offsets := by
  induction batch with
  | nil =>
    intro stage staged
    exact .inr ⟨stage,[],[],rfl,staged,⟨[],by simp⟩,rfl,by simp,.nil⟩
  | cons input rest ih =>
    intro stage staged
    obtain ⟨key,value⟩ := input
    rw [EngineCopyArena.plan]
    rcases staged.value holds key value with ⟨refusal,refused,ends⟩ |
      ⟨stage₁,v,offset,run,rfl,staged₁,⟨more₁,grown₁⟩,outputs₁,address⟩
    · exact .inl ⟨refusal,by rw [refused]; rfl,ends⟩
    · rcases ih staged₁ with ⟨refusal,refused,ends⟩ |
        ⟨stage₂,values,offsets,run₂,staged₂,⟨more₂,grown₂⟩,inputs,outputs₂,addresses⟩
      · exact .inl ⟨refusal,by rw [run]; exact refused,ends⟩
      · have kept : published ++ stage₁.entries ⊆ published ++ stage₂.entries := by
          rw [grown₂,← List.append_assoc]
          exact List.subset_append_left _ _
        refine .inr ⟨stage₂,v :: values,offset :: offsets,by rw [run]; exact run₂,staged₂,?_,?_,?_,?_⟩
        · exact ⟨more₁ ++ more₂,by rw [grown₂,grown₁,List.append_assoc]⟩
        · simp [inputs]
        · rw [outputs₂,outputs₁,List.append_assoc,List.singleton_append]
        · exact .cons (address.mono kept) addresses

/-- The slots and the payload of the mapping against the published entries. -/
structure Stored (a : Arena) (published : List Pending) : Prop where
  slots : ∀ i, a.slots i = (published.find? fun p => p.slot = i).map Pending.entry
  payload : ∀ p ∈ published, ∀ k < p.source.capacity, a.payload (p.entry.offset + k) = p.source.byte k

/-- One entry copied behind the others. -/
theorem Stored.write (stored : Stored a published) {p : Pending} (free : ∀ q ∈ published, q.slot ≠ p.slot)
    (behind : ∀ q ∈ published, q.entry.offset + q.source.capacity ≤ p.entry.offset) :
    Stored (a.writeEntry p) (published ++ [p]) where
  slots i := by
    simp only [Arena.writeEntry,List.find?_append]
    rcases eq_or_ne i p.slot with rfl | other
    · rw [Function.update_self,find_free.mpr free]
      simp
    · rw [Function.update_of_ne other,stored.slots]
      simp [other.symm]
  payload q member k below := by
    simp only [Arena.writeEntry]
    rcases List.mem_append.mp member with old | last
    · have before := behind q old
      rw [if_neg (by omega)]
      exact stored.payload q old k below
    · obtain rfl := List.mem_singleton.mp last
      rw [if_pos (by omega),Nat.add_sub_cancel_left]

theorem Stored.writeAll (entries : List Pending) : ∀ {a : Arena} {published : List Pending}, Stored a published →
    Indexed hash (published ++ entries) → Stored (entries.foldl Arena.writeEntry a) (published ++ entries) := by
  induction entries with
  | nil =>
    intro a published stored _
    simpa using stored
  | cons p rest ih =>
    intro a published stored indexed
    have regroup : published ++ p :: rest = (published ++ [p]) ++ rest := by simp
    have slots := indexed.placed.slots
    have apart := indexed.apart
    rw [List.map_append,List.nodup_append] at slots
    rw [List.pairwise_append] at apart
    rw [regroup] at indexed ⊢
    refine ih (stored.write (fun q member => ?_) fun q member => ?_) indexed
    · exact slots.2.2 _ (List.mem_map_of_mem member) _ (by simp)
    · exact apart.2.2 q member p List.mem_cons_self

theorem writeEntry_rest (entries : List Pending) : ∀ (a : Arena),
    (entries.foldl Arena.writeEntry a).owners = a.owners ∧ (entries.foldl Arena.writeEntry a).metrics = a.metrics := by
  induction entries with
  | nil => exact fun a => ⟨rfl,rfl⟩
  | cons p rest ih => exact fun a => ih (a.writeEntry p)

theorem writeOwner_rest (charges : List OwnerCharge) : ∀ (a : Arena),
    (charges.foldl Arena.writeOwner a).slots = a.slots ∧ (charges.foldl Arena.writeOwner a).payload = a.payload ∧
      (charges.foldl Arena.writeOwner a).metrics.bytes = a.metrics.bytes ∧
      (charges.foldl Arena.writeOwner a).metrics.values = a.metrics.values := by
  induction charges with
  | nil => exact fun a => ⟨rfl,rfl,rfl,rfl⟩
  | cons c rest ih => exact fun a => ih (a.writeOwner c)

/-- What an owner introduced, in values and bytes. -/
def introduced (published : List Pending) (k : StableOwner) : Nat := (ofOwner published k).length

def introducedBytes (published : List Pending) (k : StableOwner) : Nat := total (ofOwner published k)

/-- The invariant of an arena and its published entries. -/
structure Books (hash : Value → UInt64) (a : Arena) (published : List Pending) : Prop where
  indexed : Indexed hash published
  holds : Holds a published
  rows : Rows a.owners a.metrics.owners (introduced published) (introducedBytes published)
  values : published.length ≤ MaxValues
  room : total published ≤ PayloadBytes
  valid : ∀ p ∈ published, p.source.Valid = true

theorem Books.new (mapped : Bool) : Books hash (.new mapped) [] where
  indexed := by constructor <;> simp [Probing.Placed.nil]
  holds := by constructor <;> simp [Arena.new,total]
  rows := Rows.new mapped
  values := Nat.zero_le _
  room := Nat.zero_le _
  valid := by simp

theorem Books.staged (books : Books hash a published) : Staged hash published .new where
  indexed := by simpa [Stage.new] using books.indexed
  bytes := rfl
  values := by simpa [Stage.new] using books.values
  room := by simpa [Stage.new] using books.room
  valid := by simp [Stage.new]

theorem Books.reject (books : Books hash a published) : Books hash a.reject published :=
  ⟨books.indexed,⟨books.holds.slots,books.holds.payload,books.holds.bytes,books.holds.values⟩,books.rows,books.values,
    books.room,books.valid⟩

/-- Publication of a charged stage. -/
theorem Books.commit (books : Books hash a published) (staged : Staged hash published stage)
    (charging : Charging a stage.owners stage.entries) : Books hash (a.commit stage) (published ++ stage.entries) := by
  have stored := Stored.writeAll stage.entries ⟨books.holds.slots,books.holds.payload⟩ staged.indexed
  obtain ⟨owners,metrics⟩ := writeEntry_rest stage.entries a
  obtain ⟨slots,payload,bytes,values⟩ := writeOwner_rest stage.owners (stage.entries.foldl Arena.writeEntry a)
  have rows : Rows (stage.entries.foldl Arena.writeEntry a).owners (stage.entries.foldl Arena.writeEntry a).metrics.owners
      (introduced published) (introducedBytes published) := by
    rw [owners,metrics]
    exact books.rows
  have committed := rows.commit charging.keys charging.rows fun c member => by
    rw [owners]
    exact ⟨charging.fresh c member,charging.fits c member⟩
  refine ⟨staged.indexed,⟨?_,?_,?_,?_⟩,?_,staged.values,staged.room,?_⟩
  · intro i
    exact (congrFun slots i).trans (stored.slots i)
  · intro p member k below
    exact (congrFun payload _).trans (stored.payload p member k below)
  · have counted := books.holds.bytes
    simp only [Arena.commit,bytes,metrics,counted,staged.bytes,total_append]
  · have counted := books.holds.values
    simp only [Arena.commit,values,metrics,counted,List.length_append]
  · have counts : ∀ k, introduced published k + added OwnerCharge.values stage.owners k =
        introduced (published ++ stage.entries) k := by
      intro k
      rw [(charging.added_values k).1]
      simp [introduced,ofOwner]
    have sizes : ∀ k, introducedBytes published k + added OwnerCharge.bytes stage.owners k =
        introducedBytes (published ++ stage.entries) k := by
      intro k
      rw [(charging.added_values k).2]
      simp [introducedBytes,ofOwner,total]
    simp only [counts,sizes] at committed
    exact committed
  · intro p member
    rcases List.mem_append.mp member with old | new
    · exact books.valid p old
    · exact staged.valid p new

theorem Books.stageBatch (books : Books hash a published) (batch : List (StableOwner × Option Value)) :
    (∃ refusal, stageBatch hash a batch = .error refusal ∧ refusal ≠ .endless) ∨
      ∃ stage values, stageBatch hash a batch = .ok stage ∧ Staged hash published stage ∧
        Charging a stage.owners stage.entries ∧ batch.map Prod.snd = values.map some ∧
        List.Forall₂ (At (published ++ stage.entries)) values stage.outputs := by
  rw [EngineCopyArena.stageBatch]
  rcases books.staged.plan books.holds batch with ⟨refusal,refused,ends⟩ |
    ⟨stage,values,offsets,planned,staged,_,inputs,outputs,addresses⟩
  · exact .inl ⟨refusal,by rw [refused]; rfl,ends⟩
  · rcases (Charging.nil a).chargeAll books.rows stage.entries with ⟨reason,refused⟩ | ⟨charges,charged,charging⟩
    · exact .inl ⟨.reject reason,by simp only [bind,Except.bind,planned,refused],by simp⟩
    · refine .inr ⟨{ stage with owners := charges },values,?_,⟨staged.indexed,staged.bytes,staged.values,staged.room,
        staged.valid⟩,by simpa using charging,inputs,?_⟩
      · simp only [bind,Except.bind,planned,charged]
        rfl
      · rw [show stage.outputs = offsets from outputs]
        exact addresses

/-- How a call ends: refused without a trace but the rejected counter, or with a pointer for every value. -/
inductive Answer (hash : Value → UInt64) (a : Arena) (published : List Pending) (call : Call) :
    Arena × Except String Stage → Prop where
  | refused (error : String) : Answer hash a published call (a,.error error)
  | rejected (error : String) : Answer hash a published call (a.reject,.error error)
  | empty (none : call.batch = []) : Answer hash a published call (a,.ok .new)
  | committed (stage : Stage) (values : List Value) (books : Books hash (a.commit stage) (published ++ stage.entries))
      (inputs : call.batch.map Prod.snd = values.map some)
      (outputs : List.Forall₂ (At (published ++ stage.entries)) values stage.outputs) :
      Answer hash a published call (a.commit stage,.ok stage)

theorem Books.intern (books : Books hash a published) (call : Call) :
    ∃ result, a.intern hash call = some result ∧ Answer hash a published call result := by
  simp only [Arena.intern]
  split
  next => exact ⟨_,rfl,.refused _⟩
  next =>
    split
    next => exact ⟨_,rfl,.refused _⟩
    next =>
      split
      next none => exact ⟨_,rfl,.empty none⟩
      next =>
        split
        next => exact ⟨_,rfl,.refused _⟩
        next =>
          split
          next => exact ⟨_,rfl,.refused _⟩
          next =>
            rcases books.stageBatch call.batch with ⟨refusal,refused,ends⟩ |
              ⟨stage,values,staged,stages,charging,inputs,addresses⟩
            · rw [refused]
              cases refusal with
              | invalid => exact ⟨_,rfl,.refused _⟩
              | reject reason => exact ⟨_,rfl,.rejected _⟩
              | endless => exact absurd rfl ends
            · rw [staged]
              exact ⟨_,rfl,.committed stage values (books.commit stages charging) inputs addresses⟩

/-- The invariant of a run. -/
structure Sound (hash : Value → UInt64) (w : World) : Prop where
  books : Books hash w.arena w.published
  returned : ∀ r ∈ w.returned, At w.published r.1 r.2

theorem zip_at {entries : List Pending} {values : List Value} {offsets : List Nat}
    (addresses : List.Forall₂ (At entries) values offsets) : ∀ r ∈ values.zip offsets, At entries r.1 r.2 := by
  induction addresses with
  | nil => simp
  | cons found _ ih =>
    intro r member
    rcases List.mem_cons.mp member with rfl | later
    · exact found
    · exact ih r later

theorem Sound.step {w : World} (sound : Sound hash w) (call : Call) :
    ∃ w', w.step hash call = some w' ∧ Sound hash w' ∧ w.returned ⊆ w'.returned := by
  obtain ⟨result,interned,answer⟩ := sound.books.intern call
  rw [World.step,interned]
  cases answer with
  | refused error => exact ⟨_,rfl,⟨sound.books,sound.returned⟩,List.Subset.refl _⟩
  | rejected error => exact ⟨_,rfl,⟨sound.books.reject,sound.returned⟩,List.Subset.refl _⟩
  | empty none =>
    refine ⟨_,rfl,⟨?_,?_⟩,?_⟩
    · simpa [Stage.new] using sound.books
    · simpa [Stage.new,none] using sound.returned
    · simp [none]
  | committed stage values books inputs outputs =>
    have given : call.batch.filterMap Prod.snd = values := by
      have present := congrArg (List.filterMap id) inputs
      simpa [List.filterMap_map] using present
    refine ⟨_,rfl,⟨books,fun r member => ?_⟩,List.subset_append_left _ _⟩
    rw [given] at member
    rcases List.mem_append.mp member with old | new
    · exact (sound.returned r old).mono (List.subset_append_left _ _)
    · exact zip_at outputs r new

theorem Sound.run (calls : List Call) : ∀ {w : World}, Sound hash w →
    ∃ w', run hash calls w = some w' ∧ Sound hash w' ∧ w.returned ⊆ w'.returned := by
  induction calls with
  | nil => exact fun {w} sound => ⟨w,rfl,sound,List.Subset.refl _⟩
  | cons call rest ih =>
    intro w sound
    obtain ⟨w₁,stepped,sound₁,grown₁⟩ := sound.step call
    obtain ⟨w₂,finished,sound₂,grown₂⟩ := ih sound₁
    exact ⟨w₂,by rw [EngineCopyArena.run,stepped]; exact finished,sound₂,List.Subset.trans grown₁ grown₂⟩

theorem Sound.new (hash : Value → UInt64) (mapped : Bool) : Sound hash (.new mapped) := ⟨Books.new mapped,by simp [World.new]⟩

/-- The owners that the metrics count are those of the published entries. -/
theorem Books.owners (books : Books hash a published) :
    a.metrics.owners = (published.map Pending.owner).dedup.length := by
  have used : a.metrics.owners = (Finset.univ.filter fun r => (a.owners r).values ≠ 0).card := by
    rw [books.rows.used,Finset.card_filter]
    refine Finset.sum_congr rfl fun r _ => ?_
    by_cases unused : (a.owners r).values = 0 <;> simp [unused]
  have keys : (Finset.univ.filter fun r => (a.owners r).values ≠ 0).image (fun r => (a.owners r).key) =
      (published.map Pending.owner).toFinset := by
    ext k
    simp only [Finset.mem_image,Finset.mem_filter,Finset.mem_univ,true_and,List.mem_toFinset,List.mem_map]
    constructor
    · rintro ⟨r,held,rfl⟩
      have counted := books.rows.values r held
      rw [counted,introduced] at held
      obtain ⟨p,member⟩ := List.exists_mem_of_length_pos (Nat.pos_of_ne_zero held)
      exact ⟨p,List.mem_of_mem_filter member,by simpa using List.of_mem_filter member⟩
    · rintro ⟨p,member,rfl⟩
      refine books.rows.rowed p.owner ?_
      have inside : p ∈ ofOwner published p.owner := List.mem_filter.mpr ⟨member,by simp⟩
      exact Nat.ne_of_gt (List.length_pos_of_mem inside)
  rw [used,← List.card_toFinset,← keys,Finset.card_image_of_injOn]
  intro r held r' held' same
  exact books.rows.distinct r r' (by simpa using held) (by simpa using held') same

/-- The address of a value holds its bytes, and a NUL behind those of a string. -/
theorem Books.kept (books : Books hash a published) {v : Value} {offset : Nat} (found : At published v offset) :
    (List.range v.bytes.length).map (fun k => a.payload (offset + k)) = v.bytes ∧
      (v.kind = .string → a.payload (offset + v.bytes.length) = 0) := by
  obtain ⟨p,member,rfl,rfl⟩ := found
  have enough := length_le_capacity p.source
  refine ⟨Eq.trans (List.map_congr_left fun k below => ?_) (read_bytes p.source),fun string => ?_⟩
  · have := List.mem_range.mp below
    exact books.holds.payload p member k (by omega)
  · rw [if_pos string] at enough
    rw [books.holds.payload p member _ (by omega)]
    simp [Value.byte]

/-- Two addresses are the same value's, or the ranges they address are apart. -/
theorem Books.apart (books : Books hash a published) {v v' : Value} {offset offset' : Nat} (found : At published v offset)
    (found' : At published v' offset') :
    (v = v' ∧ offset = offset') ∨ v ≠ v' ∧ offset ≠ offset' ∧
      (offset + v.capacity ≤ offset' ∨ offset' + v'.capacity ≤ offset) := by
  obtain ⟨p,member,rfl,rfl⟩ := found
  obtain ⟨q,member',rfl,rfl⟩ := found'
  have size := capacity_pos (books.valid p member)
  have size' := capacity_pos (books.valid q member')
  by_cases same : p.source = q.source
  · exact .inl ⟨same,by rw [List.inj_on_of_nodup_map books.indexed.values member member' same]⟩
  · have different : p ≠ q := fun equal => same (equal ▸ rfl)
    have ranges : p.entry.offset + p.source.capacity ≤ q.entry.offset ∨
        q.entry.offset + q.source.capacity ≤ p.entry.offset := by
      obtain ⟨i,below,rfl⟩ := List.getElem_of_mem member
      obtain ⟨j,below',rfl⟩ := List.getElem_of_mem member'
      have pairs := List.pairwise_iff_getElem.mp books.indexed.apart
      rcases Nat.lt_trichotomy i j with before | rfl | after
      · exact .inl (pairs i j below below' before)
      · exact absurd rfl different
      · exact .inr (pairs j i below' below after)
    exact .inr ⟨same,by omega,ranges⟩

/-- A canonical store: where the returned pointers point, and the exact books of the mapping. -/
structure Canonical (w : World) : Prop where
  kept : ∀ r ∈ w.returned, (List.range r.1.bytes.length).map (fun k => w.arena.payload (r.2 + k)) = r.1.bytes ∧
    (r.1.kind = .string → w.arena.payload (r.2 + r.1.bytes.length) = 0)
  canonical : ∀ r ∈ w.returned, ∀ r' ∈ w.returned, r.2 = r'.2 ↔ r.1 = r'.1
  disjoint : ∀ r ∈ w.returned, ∀ r' ∈ w.returned, r.2 ≠ r'.2 →
    r.2 + r.1.capacity ≤ r'.2 ∨ r'.2 + r'.1.capacity ≤ r.2
  aligned : ∀ r ∈ w.returned, r.2 % 16 = 0
  inside : ∀ r ∈ w.returned, r.2 + r.1.capacity ≤ PayloadBytes
  published : ∀ r ∈ w.returned, At w.published r.1 r.2
  slots : ∀ i entry, w.arena.slots i = some entry ↔ ∃ p ∈ w.published, p.slot = i ∧ p.entry = entry
  once : (w.published.map Pending.source).Nodup
  bytes : w.arena.metrics.bytes = total w.published
  values : w.arena.metrics.values = w.published.length
  owners : w.arena.metrics.owners = (w.published.map Pending.owner).dedup.length
  limits : w.arena.metrics.bytes ≤ PayloadBytes ∧ w.arena.metrics.values ≤ MaxValues ∧
    w.arena.metrics.owners ≤ PermanentOwners
  rows : ∀ r, ((w.arena.owners r).values = 0 ∧ (w.arena.owners r).bytes = 0) ∨
    (w.arena.owners r).values = introduced w.published (w.arena.owners r).key ∧
      (w.arena.owners r).bytes = introducedBytes w.published (w.arena.owners r).key
  rowed : ∀ p ∈ w.published, ∃! r, (w.arena.owners r).values ≠ 0 ∧ (w.arena.owners r).key = p.owner
  rowLimits : ∀ r, (w.arena.owners r).bytes ≤ OwnerPayload ∧ (w.arena.owners r).values ≤ OwnerValues

theorem Sound.canonical {w : World} (sound : Sound hash w) : Canonical w where
  kept r member := sound.books.kept (sound.returned r member)
  canonical r member r' member' := by
    rcases sound.books.apart (sound.returned r member) (sound.returned r' member') with ⟨same,equal⟩ | ⟨other,different,_⟩
    · simp [same,equal]
    · simp [other,different]
  disjoint r member r' member' apart := by
    rcases sound.books.apart (sound.returned r member) (sound.returned r' member') with ⟨_,equal⟩ | ⟨_,_,ranges⟩
    · exact absurd equal apart
    · exact ranges
  aligned r member := by
    obtain ⟨p,inside,_,here⟩ := sound.returned r member
    exact here ▸ sound.books.indexed.aligned p inside
  inside r member := by
    obtain ⟨p,inside,same,here⟩ := sound.returned r member
    have room := sound.books.room
    have fits := sound.books.indexed.inside p inside
    rw [← same,← here]
    omega
  published := sound.returned
  slots i entry := by
    rw [sound.books.holds.slots,Option.map_eq_some_iff]
    constructor
    · rintro ⟨p,found,same⟩
      exact ⟨p,List.mem_of_find?_eq_some found,by simpa using List.find?_some found,same⟩
    · rintro ⟨p,member,rfl,same⟩
      exact ⟨p,find_slot sound.books.indexed.placed.slots member,same⟩
  once := sound.books.indexed.values
  bytes := sound.books.holds.bytes
  values := sound.books.holds.values
  owners := sound.books.owners
  limits := by
    refine ⟨?_,?_,?_⟩
    · rw [sound.books.holds.bytes]
      exact sound.books.room
    · rw [sound.books.holds.values]
      exact sound.books.values
    · rw [sound.books.rows.used]
      refine (Finset.sum_le_card_nsmul _ _ 1 fun r _ => ?_).trans_eq (by simp)
      split <;> omega
  rows r := by
    by_cases unused : (w.arena.owners r).values = 0
    · exact .inl ⟨unused,sound.books.rows.unused r unused⟩
    · exact .inr ⟨sound.books.rows.values r unused,sound.books.rows.bytes r unused⟩
  rowed p member := by
    have inside : p ∈ ofOwner w.published p.owner := List.mem_filter.mpr ⟨member,by simp⟩
    obtain ⟨r,used,same⟩ := sound.books.rows.rowed p.owner (Nat.ne_of_gt (List.length_pos_of_mem inside))
    exact ⟨r,⟨used,same⟩,fun r' ⟨used',same'⟩ => sound.books.rows.distinct r' r used' used (same'.trans same.symm)⟩
  rowLimits r := ⟨sound.books.rows.ownerPayload r,sound.books.rows.ownerValues r⟩

/-- Every run of batches, whatever the hash, ends in a canonical store that has kept the pointers of
every point of the run; the next batch ends as well, and a refusal leaves only the rejected counter. -/
theorem intern_canonical (hash : Value → UInt64) (mapped : Bool) (calls more : List Call) :
    ∃ w w', run hash calls (.new mapped) = some w ∧ run hash more w = some w' ∧
      Canonical w ∧ Canonical w' ∧ w.returned ⊆ w'.returned ∧
      ∀ call, ∃ arena result, w.arena.intern hash call = some (arena,result) ∧
        (∀ error, result = .error error → arena = w.arena ∨ arena = w.arena.reject) ∧
        ∀ stage, result = .ok stage → ∃ values, call.batch.map Prod.snd = values.map some ∧
          List.Forall₂ (At (w.published ++ stage.entries)) values stage.outputs := by
  obtain ⟨w,first,sound,_⟩ := (Sound.new hash mapped).run calls
  obtain ⟨w',second,sound',grown⟩ := sound.run more
  refine ⟨w,w',first,second,sound.canonical,sound'.canonical,grown,fun call => ?_⟩
  obtain ⟨⟨arena,result⟩,interned,answer⟩ := sound.books.intern call
  refine ⟨arena,result,interned,?_,?_⟩
  · rintro error rfl
    cases answer with
    | refused => exact .inl rfl
    | rejected => exact .inr rfl
  · rintro stage rfl
    cases answer with
    | empty none => exact ⟨[],by simp [none],.nil⟩
    | committed stage values books inputs outputs => exact ⟨values,inputs,outputs⟩

end S2Script.EngineCopyArena
