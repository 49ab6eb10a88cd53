import S2Script.Sdkhooks

/-! The hook store against one list of subscriptions in registration order: each table is a
view of that list, and a removal takes one subscription out of it. -/
namespace S2Script.Sdkhooks

open ListIndex

variable {H : Type}

/-- One subscription, with the address its entity has in the engine. -/
structure Sub (H : Type) where
  id : Nat
  entity : Nat
  kind : String
  owner : String
  generation : Nat
  handler : H
  index : Int
  serial : Int
  deriving DecidableEq, Repr

def Sub.entry (sub : Sub H) : Entry H := ⟨sub.owner,sub.generation,sub.handler,sub.id⟩

def Sub.address (sub : Sub H) : EntityAddress := ⟨sub.entity,sub.index,sub.serial,sub.id⟩

def Sub.place (sub : Sub H) : Int × Int := (sub.index,sub.serial)

def ofKind (subs : List (Sub H)) (kind : String) : List (Sub H) := subs.filter fun sub => sub.kind == kind

def ofEntityKind (subs : List (Sub H)) (entity : Nat) (kind : String) : List (Sub H) :=
  (ofKind subs kind).filter fun sub => sub.entity == entity

def without (subs : List (Sub H)) (id : Nat) : List (Sub H) := subs.filter fun sub => sub.id != id

/-- The bucket of an entity's subscriptions of one kind. -/
def bucketOf : List (Sub H) → Option (Bucket H)
  | [] => none
  | first :: rest => some ⟨first.index,first.serial,(first :: rest).map Sub.entry⟩

def positive (count : Nat) : Option Nat := if count = 0 then none else some count

/-- Registration order is that of the ids. -/
def Ordered (subs : List (Sub H)) : Prop := subs.Pairwise fun a b => a.id < b.id

/-- One engine address for each entity, and one entity for each address. -/
def OneAddress (subs : List (Sub H)) : Prop := ∀ a ∈ subs, ∀ b ∈ subs, a.entity = b.entity ↔ a.place = b.place

/-- Every table of the store says what the list says. -/
structure Refines (store : HookStore H) (subs : List (Sub H)) : Prop where
  ordered : Ordered subs
  addresses : OneAddress subs
  buckets : ∀ entity kind, store.bucket entity kind = bucketOf (ofEntityKind subs entity kind)
  noEmpty : ∀ entity kinds, store.buckets.lookup entity = some kinds → kinds.entries ≠ []
  bySub : ∀ id, store.bySub.lookup id = (subs.find? fun sub => sub.id == id).map fun sub => (sub.entity,sub.kind)
  byOwner : Indexes store.byOwner Sub.owner Sub.id subs
  byEntity : Indexes store.byEntity Sub.entity Sub.id subs
  kindCounts : ∀ kind, store.kindCounts.lookup kind = positive (ofKind subs kind).length
  kindEntities : ∀ kind,
    store.kindEntities.lookup kind = nonEmpty ((firsts Sub.entity (ofKind subs kind)).map Sub.address)

variable {store : HookStore H} {subs : List (Sub H)}

theorem Refines.empty : Refines (HookStore.empty : HookStore H) [] where
  ordered := List.Pairwise.nil
  addresses := fun _ member => nomatch member
  buckets := fun _ _ => rfl
  noEmpty := fun _ _ found => nomatch found
  bySub := fun _ => rfl
  byOwner := Indexes.empty
  byEntity := Indexes.empty
  kindCounts := fun _ => rfl
  kindEntities := fun _ => rfl

theorem mem_ofEntityKind {entity : Nat} {kind : String} {sub : Sub H} :
    sub ∈ ofEntityKind subs entity kind ↔ sub ∈ subs ∧ sub.kind = kind ∧ sub.entity = entity := by
  simp only [ofEntityKind,ofKind,List.mem_filter,beq_iff_eq,and_assoc]

theorem bucketOf_ne_nil {subs : List (Sub H)} (some : subs ≠ []) : (bucketOf subs).isSome := by
  cases subs with
  | nil => exact absurd rfl some
  | cons first rest => rfl

theorem Refines.has_iff (refines : Refines store subs) (entity : Nat) (kind : String) :
    store.has entity kind = true ↔ ∃ sub ∈ subs, sub.kind = kind ∧ sub.entity = entity := by
  rw [HookStore.has,refines.buckets]
  cases rows : ofEntityKind subs entity kind with
  | nil =>
    refine ⟨(fun known => nomatch known),fun ⟨sub,member,sameKind,sameEntity⟩ => ?_⟩
    have inRows := mem_ofEntityKind.mpr ⟨member,sameKind,sameEntity⟩
    rw [rows] at inRows
    exact nomatch inRows
  | cons first rest =>
    have inRows : first ∈ ofEntityKind subs entity kind := rows ▸ List.mem_cons_self
    exact iff_of_true rfl ⟨first,mem_ofEntityKind.mp inRows⟩

section Insert

variable (sub : Sub H)

theorem ofKind_snoc (kind : String) :
    ofKind (subs ++ [sub]) kind = if sub.kind = kind then ofKind subs kind ++ [sub] else ofKind subs kind := by
  by_cases same : sub.kind = kind <;> simp [ofKind,same]

theorem ofEntityKind_snoc (entity : Nat) (kind : String) :
    ofEntityKind (subs ++ [sub]) entity kind =
      if sub.kind = kind ∧ sub.entity = entity then ofEntityKind subs entity kind ++ [sub] else ofEntityKind subs entity kind := by
  rw [ofEntityKind,ofKind_snoc]
  by_cases sameKind : sub.kind = kind <;> by_cases sameEntity : sub.entity = entity <;>
    simp [ofEntityKind,sameKind,sameEntity]

theorem bucket_insert (entity : Nat) (kind : String) :
    (store.insert sub.entity sub.index sub.serial sub.kind sub.entry).bucket entity kind =
      if sub.kind = kind ∧ sub.entity = entity then
        some (match store.bucket entity kind with
          | none => ⟨sub.index,sub.serial,[sub.entry]⟩
          | some bucket => { bucket with entries := bucket.entries ++ [sub.entry] })
      else store.bucket entity kind := by
  simp only [HookStore.insert,HookStore.bucket,Table.lookup_insert_eq]
  by_cases sameEntity : entity = sub.entity
  · subst sameEntity
    rw [if_pos rfl,Option.bind_some,Table.lookup_insert_eq]
    cases found : store.buckets.lookup sub.entity with
    | none =>
      by_cases sameKind : kind = sub.kind
      · subst sameKind
        simp
      · simp [sameKind,Ne.symm sameKind]
    | some kinds =>
      by_cases sameKind : kind = sub.kind
      · subst sameKind
        cases here : kinds.lookup sub.kind <;> simp [here]
      · simp [sameKind,Ne.symm sameKind]
  · rw [if_neg sameEntity,if_neg fun both => sameEntity both.2.symm]

theorem bucketOf_snoc (rows : List (Sub H)) :
    bucketOf (rows ++ [sub]) = some (match bucketOf rows with
      | none => ⟨sub.index,sub.serial,[sub.entry]⟩
      | some bucket => { bucket with entries := bucket.entries ++ [sub.entry] }) := by
  cases rows <;> simp [bucketOf]

/-- A fresh subscription goes to the end of the list. -/
theorem Refines.insert (refines : Refines store subs) (fresh : ∀ other ∈ subs, other.id < sub.id)
    (addresses : OneAddress (subs ++ [sub])) :
    Refines (store.insert sub.entity sub.index sub.serial sub.kind sub.entry) (subs ++ [sub]) where
  ordered := sorted_snoc refines.ordered fresh
  addresses := addresses
  buckets := by
    intro entity kind
    rw [bucket_insert,refines.buckets,ofEntityKind_snoc]
    split
    · exact (bucketOf_snoc sub _).symm
    · rfl
  noEmpty := by
    intro entity kinds found
    simp only [HookStore.insert,Table.lookup_insert_eq] at found
    split at found
    · obtain rfl := Option.some.inj found
      rw [AList.entries_insert]
      exact List.cons_ne_nil _ _
    · exact refines.noEmpty entity kinds found
  bySub := by
    intro id
    simp only [HookStore.insert,Table.lookup_insert_eq,List.find?_append,Sub.entry]
    split
    · next same =>
      subst same
      have absent : (subs.find? fun other => other.id == sub.id) = none := by
        rw [List.find?_eq_none]
        intro other member equal
        have := fresh other member
        have := beq_iff_eq.mp equal
        omega
      simp [absent]
    · next differ =>
      rw [refines.bySub id,List.find?_cons_of_neg (by simpa using Ne.symm differ)]
      simp
  byOwner := refines.byOwner.push sub
  byEntity := refines.byEntity.push sub
  kindCounts := by
    intro kind
    simp only [HookStore.insert,Table.lookup_insert_eq,refines.kindCounts,ofKind_snoc]
    by_cases same : kind = sub.kind
    · subst same
      rw [if_pos rfl,if_pos rfl,List.length_append,positive,positive]
      split <;> simp_all
    · rw [if_neg same,if_neg (Ne.symm same)]
  kindEntities := by
    intro kind
    have ordered : (ofKind subs kind).Pairwise fun a b => a.id < b.id := List.Pairwise.filter _ refines.ordered
    have known : (∃ other ∈ ofKind subs sub.kind, other.entity = sub.entity) ↔ store.has sub.entity sub.kind = true := by
      rw [refines.has_iff]
      simp [ofKind,and_assoc]
    simp only [HookStore.insert]
    by_cases same : kind = sub.kind
    · subst same
      have rows := firsts_snoc Sub.entity ordered fun other member => fresh other (List.mem_of_mem_filter member)
      rw [ofKind_snoc,if_pos rfl,rows]
      cases here : store.has sub.entity sub.kind with
      | true =>
        rw [if_pos (known.mpr here)]
        exact refines.kindEntities sub.kind
      | false =>
        have unknown : ¬∃ other ∈ ofKind subs sub.kind, other.entity = sub.entity := by rw [known,here]; exact Bool.false_ne_true
        rw [Bool.not_false,if_pos rfl,if_neg unknown,pushAt,Table.lookup_insert_eq,
          if_pos rfl,refines.kindEntities,nonEmpty_getD,List.map_append]
        exact (nonEmpty_of_ne (by simp)).symm
    · rw [ofKind_snoc,if_neg (Ne.symm same)]
      split
      · rw [pushAt,Table.lookup_insert_eq,if_neg same]
        exact refines.kindEntities kind
      · exact refines.kindEntities kind

end Insert

section Remove

theorem mem_without {sub : Sub H} {id : Nat} : sub ∈ without subs id ↔ sub ∈ subs ∧ sub.id ≠ id := by
  simp [without]

theorem ofKind_without (id : Nat) (kind : String) : ofKind (without subs id) kind = without (ofKind subs kind) id :=
  List.filter_comm _ _ _

theorem ofEntityKind_without (id entity : Nat) (kind : String) :
    ofEntityKind (without subs id) entity kind = without (ofEntityKind subs entity kind) id := by
  rw [ofEntityKind,ofKind_without]
  exact List.filter_comm _ _ _

theorem without_unknown {id : Nat} (unknown : ∀ sub ∈ subs, sub.id ≠ id) : without subs id = subs := by
  rw [without,List.filter_eq_self]
  simpa using unknown

theorem Ordered.filter {subs : List (Sub H)} (ordered : Ordered subs) (keep : Sub H → Bool) : Ordered (subs.filter keep) :=
  List.Pairwise.filter keep ordered

theorem Ordered.inj {subs : List (Sub H)} (ordered : Ordered subs) {a b : Sub H} (aIn : a ∈ subs) (bIn : b ∈ subs)
    (same : a.id = b.id) : a = b :=
  rank_inj ordered aIn bIn same

theorem entries_find {rows : List (Sub H)} (ordered : Ordered rows) {sub : Sub H} (member : sub ∈ rows) :
    (rows.map Sub.entry).find? (fun entry => entry.subId == sub.id) = some sub.entry := by
  have found := find?_eq_some (rank_unique ordered sub.id) member (beq_self_eq_true sub.id)
  rw [List.find?_map]
  exact congrArg (Option.map Sub.entry) found

theorem entries_eraseP {rows : List (Sub H)} (ordered : Ordered rows) (id : Nat) :
    (rows.map Sub.entry).eraseP (fun entry => entry.subId == id) = (without rows id).map Sub.entry := by
  have erased := eraseP_eq_filter (rank_unique ordered id)
  rw [List.eraseP_map]
  exact congrArg (List.map Sub.entry) erased

theorem bucket_putBack {buckets : Table Nat (Table String (Bucket H))} {entity : Nat} {kinds : Table String (Bucket H)}
    (found : buckets.lookup entity = some kinds) (kind : String) (bucket : Bucket H) (e : Nat) (k : String) :
    ((HookStore.putBack buckets entity kinds kind bucket).lookup e).bind (fun kinds => kinds.lookup k) =
      if e = entity ∧ k = kind then (if bucket.entries.isEmpty then none else some bucket)
      else (buckets.lookup e).bind fun kinds => kinds.lookup k := by
  rw [HookStore.putBack]
  by_cases sameEntity : e = entity
  · subst sameEntity
    rw [found]
    cases empty : bucket.entries.isEmpty with
    | false =>
      by_cases sameKind : k = kind
      · subst sameKind
        simp
      · simp [sameKind]
    | true =>
      have erased : (kinds.erase kind).lookup k = if k = kind then none else kinds.lookup k :=
        Table.lookup_erase_eq kinds kind k
      simp only [if_true,true_and]
      split
      · next none =>
        have absent : (kinds.erase kind).lookup k = Option.none := by
          rw [AList.lookup_eq_none,AList.mem_keys,AList.keys,List.isEmpty_iff.mp none]
          exact List.not_mem_nil
        rw [AList.lookup_erase,Option.bind_none,Option.bind_some,← erased,absent]
      · rw [AList.lookup_insert,Option.bind_some,erased,Option.bind_some]
  · have elsewhere : ¬(e = entity ∧ k = kind) := fun both => sameEntity both.1
    rw [if_neg elsewhere]
    simp only
    split
    · split
      · rw [AList.lookup_erase_ne sameEntity]
      · rw [AList.lookup_insert_ne sameEntity]
    · rw [AList.lookup_insert_ne sameEntity]

theorem noEmpty_putBack {buckets : Table Nat (Table String (Bucket H))}
    (noEmpty : ∀ entity kinds, buckets.lookup entity = some kinds → kinds.entries ≠ []) (entity : Nat)
    (kinds : Table String (Bucket H)) (kind : String) (bucket : Bucket H) (e : Nat) (others : Table String (Bucket H))
    (found : (HookStore.putBack buckets entity kinds kind bucket).lookup e = some others) : others.entries ≠ [] := by
  simp only [HookStore.putBack] at found
  split at found
  · split at found
    · rw [Table.lookup_erase_eq] at found
      split at found
      · exact nomatch found
      · exact noEmpty e others found
    · next some =>
      rw [Table.lookup_insert_eq] at found
      split at found
      · obtain rfl := Option.some.inj found
        simpa using some
      · exact noEmpty e others found
  · rw [Table.lookup_insert_eq] at found
    split at found
    · obtain rfl := Option.some.inj found
      rw [AList.entries_insert]
      exact List.cons_ne_nil _ _
    · exact noEmpty e others found

theorem ofKind_without_other (ordered : Ordered subs) {sub : Sub H} (member : sub ∈ subs) {kind : String}
    (other : kind ≠ sub.kind) : ofKind (without subs sub.id) kind = ofKind subs kind := by
  rw [ofKind_without]
  refine without_unknown fun row inKind sameId => other ?_
  obtain ⟨inSubs,sameKind⟩ := List.mem_filter.mp inKind
  rw [← beq_iff_eq.mp sameKind,ordered.inj inSubs member sameId]

theorem countDown_lookup {kindCounts : Table String Nat} {subs : List (Sub H)} (ordered : Ordered subs)
    (counts : ∀ kind, kindCounts.lookup kind = positive (ofKind subs kind).length) {sub : Sub H} (member : sub ∈ subs)
    (kind : String) :
    (HookStore.countDown kindCounts sub.kind).lookup kind = positive (ofKind (without subs sub.id) kind).length := by
  have inKind : sub ∈ ofKind subs sub.kind := List.mem_filter.mpr ⟨member,beq_self_eq_true _⟩
  have some : (ofKind subs sub.kind).length ≠ 0 := fun none => by
    rw [List.length_eq_zero_iff.mp none] at inKind
    exact nomatch inKind
  have fewer : (ofKind (without subs sub.id) sub.kind).length = (ofKind subs sub.kind).length - 1 := by
    have erased := eraseP_eq_filter (rank_unique (ordered.filter fun other => other.kind == sub.kind) sub.id)
    rw [ofKind_without,without]
    exact (congrArg List.length erased).symm.trans (List.length_eraseP_of_mem inKind (beq_self_eq_true sub.id))
  rw [HookStore.countDown,counts,positive,if_neg some]
  simp only
  by_cases same : kind = sub.kind
  · subst same
    rw [fewer,positive]
    split
    · rw [AList.lookup_erase]
    · rw [AList.lookup_insert]
  · rw [ofKind_without_other ordered member same,← counts kind]
    split
    · rw [AList.lookup_erase_ne same]
    · rw [AList.lookup_insert_ne same]

variable {kindEntities : Table String (List EntityAddress)}

theorem unlistEntity_lookup (kind other : String) (entity : Nat) :
    (HookStore.unlistEntity kindEntities kind entity).lookup other =
      if other = kind then (kindEntities.lookup kind).bind fun entities =>
        nonEmpty (entities.filter fun address => address.entityId != entity)
      else kindEntities.lookup other := by
  cases found : kindEntities.lookup kind with
  | none =>
    simp only [HookStore.unlistEntity,found,Option.bind_none]
    split
    · next same => rw [same,found]
    · rfl
  | some entities =>
    simp only [HookStore.unlistEntity,found,Option.bind_some,nonEmpty]
    split
    · exact Table.lookup_erase_eq _ _ _
    · exact Table.lookup_insert_eq _ _ _ _

theorem rerankEntity_lookup {entities : List EntityAddress} {address : EntityAddress} {kind : String} {entity : Nat}
    (listed : kindEntities.lookup kind = some entities)
    (found : entities.find? (fun address => address.entityId == entity) = some address) (firstSubId : Nat) (other : String) :
    (HookStore.rerankEntity kindEntities kind entity firstSubId).lookup other =
      if other = kind then some (place EntityAddress.firstSubId { address with firstSubId := firstSubId }
        (entities.eraseP fun address => address.entityId == entity))
      else kindEntities.lookup other := by
  simp only [HookStore.rerankEntity,listed,found]
  exact Table.lookup_insert_eq _ _ _ _

/-- The first subscription of an entity and kind is the one its entity is listed by. -/
theorem mem_firsts_iff_head (ordered : Ordered subs) {sub : Sub H} (member : sub ∈ subs) :
    sub ∈ firsts Sub.entity (ofKind subs sub.kind) ↔ (ofEntityKind subs sub.entity sub.kind).head? = some sub := by
  have inRows : sub ∈ ofEntityKind subs sub.entity sub.kind := mem_ofEntityKind.mpr ⟨member,rfl,rfl⟩
  have inKind : sub ∈ ofKind subs sub.kind := List.mem_of_mem_filter inRows
  have kindOrdered : Ordered (ofKind subs sub.kind) := ordered.filter _
  have rowsOrdered : Ordered (ofEntityKind subs sub.entity sub.kind) := kindOrdered.filter _
  rw [mem_firsts kindOrdered]
  cases rows : ofEntityKind subs sub.entity sub.kind with
  | nil =>
    rw [rows] at inRows
    exact nomatch inRows
  | cons first rest =>
    rw [rows] at inRows rowsOrdered
    have firstIn : first ∈ ofEntityKind subs sub.entity sub.kind := rows ▸ List.mem_cons_self
    obtain ⟨firstKind,firstEntity⟩ := List.mem_filter.mp firstIn
    rw [List.head?_cons,Option.some.injEq]
    constructor
    · rintro ⟨_,least⟩
      rcases List.mem_cons.mp inRows with same | later
      · exact same.symm
      · have before := (List.pairwise_cons.mp rowsOrdered).1 sub later
        have := least first firstKind (beq_iff_eq.mp firstEntity)
        omega
    · rintro rfl
      refine ⟨inKind,fun other otherKind sameEntity => ?_⟩
      have otherIn : other ∈ first :: rest := rows ▸ List.mem_filter.mpr ⟨otherKind,beq_iff_eq.mpr sameEntity⟩
      rcases List.mem_cons.mp otherIn with same | later
      · exact same ▸ Nat.le_refl _
      · exact Nat.le_of_lt ((List.pairwise_cons.mp rowsOrdered).1 other later)

theorem firsts_ne_nil {sub : Sub H} {rows : List (Sub H)} (member : sub ∈ rows) : firsts Sub.entity rows ≠ [] := by
  obtain ⟨first,listed,_⟩ := firsts_complete Sub.entity member
  exact List.ne_nil_of_mem listed

/-- How an entity's last, first or later subscription of a kind leaves the kind's list. -/
theorem kindEntities_remove (ordered : Ordered subs) (addresses : OneAddress subs)
    (lists : ∀ kind, kindEntities.lookup kind = nonEmpty ((firsts Sub.entity (ofKind subs kind)).map Sub.address))
    {sub : Sub H} (member : sub ∈ subs) {rest : List (Sub H)}
    (restRows : rest = without (ofEntityKind subs sub.entity sub.kind) sub.id) {atFront : Bool}
    (frontRow : atFront = true ↔ (ofEntityKind subs sub.entity sub.kind).head? = some sub) (kind : String) :
    (if (rest.map Sub.entry).isEmpty then HookStore.unlistEntity kindEntities sub.kind sub.entity
      else match (if atFront then (rest.map Sub.entry).head?.map Entry.subId else none) with
        | none => kindEntities
        | some firstSubId => HookStore.rerankEntity kindEntities sub.kind sub.entity firstSubId).lookup kind =
      nonEmpty ((firsts Sub.entity (ofKind (without subs sub.id) kind)).map Sub.address) := by
  have inRows : sub ∈ ofEntityKind subs sub.entity sub.kind := mem_ofEntityKind.mpr ⟨member,rfl,rfl⟩
  have inKind : sub ∈ ofKind subs sub.kind := List.mem_of_mem_filter inRows
  have kindOrdered : Ordered (ofKind subs sub.kind) := ordered.filter _
  have listed := (lists sub.kind).trans (nonEmpty_of_ne (by simpa using firsts_ne_nil inKind))
  have mem_rest : ∀ {row}, row ∈ rest ↔ (row ∈ ofKind subs sub.kind ∧ row.entity = sub.entity) ∧ row.id ≠ sub.id := by
    intro row
    rw [restRows,mem_without,ofEntityKind,List.mem_filter,beq_iff_eq]
  have unchanged : kind ≠ sub.kind → nonEmpty ((firsts Sub.entity (ofKind (without subs sub.id) kind)).map Sub.address) =
      kindEntities.lookup kind := fun other => by rw [ofKind_without_other ordered member other,lists]
  cases rows : rest with
  | nil =>
    have only : ∀ row ∈ ofKind subs sub.kind, row.entity = sub.entity → row = sub := by
      intro row rowKind sameEntity
      by_contra differ
      have inRest := mem_rest.mpr ⟨⟨rowKind,sameEntity⟩,fun sameId =>
        differ (kindOrdered.inj rowKind inKind sameId)⟩
      rw [rows] at inRest
      cases inRest
    rw [List.map_nil,List.isEmpty_nil,if_pos rfl,unlistEntity_lookup,listed,Option.bind_some]
    split
    · next same =>
      rw [same,ofKind_without,without,firsts_remove_only kindOrdered inKind only,List.filter_map]
      rfl
    · next other => exact (unchanged other).symm
  | cons next later =>
    have nextIn : next ∈ rest := rows ▸ List.mem_cons_self
    obtain ⟨⟨nextKind,nextEntity⟩,apart⟩ := mem_rest.mp nextIn
    rw [List.map_cons,List.isEmpty_cons,if_neg Bool.false_ne_true]
    by_cases front : (ofEntityKind subs sub.entity sub.kind).head? = some sub
    · have inFirsts : sub ∈ firsts Sub.entity (ofKind subs sub.kind) := (mem_firsts_iff_head ordered member).mpr front
      have unique : (firsts Sub.entity (ofKind subs sub.kind)).Pairwise fun a b =>
          (a.entity == sub.entity) = true → ¬(b.entity == sub.entity) = true := by
        refine (firsts_sorted Sub.entity kindOrdered).imp_of_mem fun aIn bIn before here there => ?_
        have same := firsts_key_inj kindOrdered aIn bIn ((beq_iff_eq.mp here).trans (beq_iff_eq.mp there).symm)
        exact Nat.ne_of_lt before (congrArg Sub.id same)
      have found : ((firsts Sub.entity (ofKind subs sub.kind)).map Sub.address).find? (fun address =>
          address.entityId == sub.entity) = some sub.address := by
        rw [List.find?_map]
        exact congrArg (Option.map Sub.address) (find?_eq_some unique inFirsts (beq_self_eq_true sub.entity))
      have erased : ((firsts Sub.entity (ofKind subs sub.kind)).map Sub.address).eraseP (fun address =>
          address.entityId == sub.entity) =
            ((firsts Sub.entity (ofKind subs sub.kind)).filter fun row => row.entity != sub.entity).map Sub.address := by
        rw [List.eraseP_map]
        exact congrArg (List.map Sub.address) (eraseP_eq_filter unique)
      have moved : { sub.address with firstSubId := next.id } = next.address := by
        have same := (addresses sub member next (List.mem_of_mem_filter nextKind)).mp nextEntity.symm
        simp only [Sub.address,nextEntity,(Prod.mk.inj same).1,(Prod.mk.inj same).2]
      have least : ∀ row ∈ ofKind subs sub.kind, row.entity = sub.entity → row.id ≠ sub.id → next.id ≤ row.id := by
        intro row rowKind sameEntity differ
        have inRest := mem_rest.mpr ⟨⟨rowKind,sameEntity⟩,differ⟩
        have restOrdered : Ordered rest := restRows ▸ (kindOrdered.filter _).filter _
        rw [rows] at inRest restOrdered
        rcases List.mem_cons.mp inRest with rfl | after
        · exact Nat.le_refl _
        · exact Nat.le_of_lt ((List.pairwise_cons.mp restOrdered).1 row after)
      rw [if_pos (frontRow.mpr front),List.head?_cons,Option.map_some]
      simp only [Sub.entry]
      rw [rerankEntity_lookup listed found]
      split
      · next same =>
        have moves := firsts_remove_first kindOrdered inKind nextKind nextEntity apart least
        have placed := place_map EntityAddress.firstSubId Sub.address next
          ((firsts Sub.entity (ofKind subs sub.kind)).filter fun row => row.entity != sub.entity)
        have some : place EntityAddress.firstSubId next.address (((firsts Sub.entity (ofKind subs sub.kind)).filter
            fun row => row.entity != sub.entity).map Sub.address) ≠ [] := by simp [place]
        rw [same,ofKind_without,without,moves]
        refine Eq.trans ?_ (congrArg nonEmpty placed)
        rw [nonEmpty_of_ne some,erased]
        exact congrArg (fun address => Option.some (place EntityAddress.firstSubId address _)) moved
      · next other => exact (unchanged other).symm
    · rw [if_neg (mt frontRow.mp front)]
      simp only
      by_cases same : kind = sub.kind
      · have stays := firsts_remove_later kindOrdered inKind (mt (mem_firsts_iff_head ordered member).mp front)
        rw [same,ofKind_without,without,stays,lists]
      · exact (unchanged same).symm

theorem OneAddress.subset {others : List (Sub H)} (addresses : OneAddress subs) (fewer : ∀ sub ∈ others, sub ∈ subs) :
    OneAddress others :=
  fun a aIn b bIn => addresses a (fewer a aIn) b (fewer b bIn)

theorem Refines.bucket_of_mem (refines : Refines store subs) {sub : Sub H} (member : sub ∈ subs) :
    store.bucket sub.entity sub.kind = some ⟨sub.index,sub.serial,(ofEntityKind subs sub.entity sub.kind).map Sub.entry⟩ := by
  have inRows : sub ∈ ofEntityKind subs sub.entity sub.kind := mem_ofEntityKind.mpr ⟨member,rfl,rfl⟩
  rw [refines.buckets]
  cases rows : ofEntityKind subs sub.entity sub.kind with
  | nil =>
    rw [rows] at inRows
    exact nomatch inRows
  | cons first rest =>
    have firstRow : first ∈ ofEntityKind subs sub.entity sub.kind := rows ▸ List.mem_cons_self
    obtain ⟨firstIn,_,sameEntity⟩ := mem_ofEntityKind.mp firstRow
    have same := (refines.addresses first firstIn sub member).mp sameEntity
    rw [bucketOf,(Prod.mk.inj same).1,(Prod.mk.inj same).2]

theorem Refines.bySub_of_mem (refines : Refines store subs) {sub : Sub H} (member : sub ∈ subs) :
    store.bySub.lookup sub.id = some (sub.entity,sub.kind) := by
  rw [refines.bySub,find?_eq_some (rank_unique refines.ordered sub.id) member (beq_self_eq_true sub.id)]
  rfl

theorem bySub_without (ordered : Ordered subs) {bySub : Table Nat (Nat × String)}
    (lookups : ∀ id, bySub.lookup id = (subs.find? fun sub => sub.id == id).map fun sub => (sub.entity,sub.kind))
    (gone id : Nat) : (bySub.erase gone).lookup id =
      ((without subs gone).find? fun sub => sub.id == id).map fun sub => (sub.entity,sub.kind) := by
  rw [Table.lookup_erase_eq,lookups]
  split
  · next same =>
    have absent : ((without subs gone).find? fun sub => sub.id == id) = none := by
      rw [List.find?_eq_none]
      intro sub member equal
      exact (mem_without.mp member).2 ((beq_iff_eq.mp equal).trans same)
    rw [absent]
    rfl
  · next differ =>
    have same : ((without subs gone).find? fun sub => sub.id == id) = subs.find? fun sub => sub.id == id := by
      cases found : subs.find? fun sub => sub.id == id with
      | none =>
        rw [List.find?_eq_none] at found ⊢
        exact fun sub member => found sub (mem_without.mp member).1
      | some sub =>
        have equal : sub.id = id := by simpa using List.find?_some found
        have member : sub ∈ without subs gone :=
          mem_without.mpr ⟨List.mem_of_find?_eq_some found,fun isGone => differ (equal.symm.trans isGone)⟩
        exact find?_eq_some (rank_unique (ordered.filter _) id) member (beq_iff_eq.mpr equal)
    rw [same]

/-- What the removal of one subscription reports. -/
def removedEntry (subs : List (Sub H)) (sub : Sub H) : RemovedEntry :=
  ⟨sub.entity,sub.index,sub.serial,sub.kind,(ofEntityKind (without subs sub.id) sub.entity sub.kind).isEmpty⟩

theorem Refines.removeSub_eq (refines : Refines store subs) {sub : Sub H} (member : sub ∈ subs) :
    ∃ kinds, store.buckets.lookup sub.entity = some kinds ∧
      store.removeSub sub.id =
        let rows := ofEntityKind subs sub.entity sub.kind
        let rest := (without rows sub.id).map Sub.entry
        ({ buckets := HookStore.putBack store.buckets sub.entity kinds sub.kind ⟨sub.index,sub.serial,rest⟩
           bySub := store.bySub.erase sub.id
           byOwner := dropAt store.byOwner sub.owner sub.id
           byEntity := dropAt store.byEntity sub.entity sub.id
           kindCounts := HookStore.countDown store.kindCounts sub.kind
           kindEntities :=
             if rest.isEmpty then HookStore.unlistEntity store.kindEntities sub.kind sub.entity
             else match (if ((rows.map Sub.entry).head?.any fun entry => entry.subId == sub.id)
                 then rest.head?.map Entry.subId else none) with
               | none => store.kindEntities
               | some firstSubId => HookStore.rerankEntity store.kindEntities sub.kind sub.entity firstSubId },
         some ⟨sub.entity,sub.index,sub.serial,sub.kind,rest.isEmpty⟩) := by
  have inRows : sub ∈ ofEntityKind subs sub.entity sub.kind := mem_ofEntityKind.mpr ⟨member,rfl,rfl⟩
  have rowsOrdered : Ordered (ofEntityKind subs sub.entity sub.kind) := (refines.ordered.filter _).filter _
  have bucket := refines.bucket_of_mem member
  rw [HookStore.bucket] at bucket
  obtain ⟨kinds,found,here⟩ := Option.bind_eq_some_iff.mp bucket
  refine ⟨kinds,found,?_⟩
  simp only [HookStore.removeSub,refines.bySub_of_mem member,found,here,entries_find rowsOrdered inRows,
    entries_eraseP rowsOrdered]
  rfl

/-- Removing a subscription takes it out of the list, and reports whether it was the last of its bucket. -/
theorem Refines.removeSub (refines : Refines store subs) {sub : Sub H} (member : sub ∈ subs) :
    Refines (store.removeSub sub.id).1 (without subs sub.id) ∧
      (store.removeSub sub.id).2 = some (removedEntry subs sub) := by
  have ordered := refines.ordered
  have rowsOrdered : Ordered (ofEntityKind subs sub.entity sub.kind) := (ordered.filter _).filter _
  have inRows : sub ∈ ofEntityKind subs sub.entity sub.kind := mem_ofEntityKind.mpr ⟨member,rfl,rfl⟩
  have byId : ∀ a b : Sub H, a.id = b.id ↔ a.id = b.id := fun _ _ => Iff.rfl
  obtain ⟨kinds,found,equal⟩ := refines.removeSub_eq member
  have restRows := (@ofEntityKind_without H subs sub.id sub.entity sub.kind).symm
  rw [equal]
  constructor
  · exact {
      ordered := ordered.filter _
      addresses := refines.addresses.subset fun row inRest => (mem_without.mp inRest).1
      buckets := by
        intro entity kind
        rw [HookStore.bucket]
        simp only
        rw [bucket_putBack found]
        by_cases same : entity = sub.entity ∧ kind = sub.kind
        · obtain ⟨rfl,rfl⟩ := same
          rw [if_pos ⟨rfl,rfl⟩,restRows]
          cases rest : ofEntityKind (without subs sub.id) sub.entity sub.kind with
          | nil => rfl
          | cons first others =>
            have firstRow : first ∈ ofEntityKind (without subs sub.id) sub.entity sub.kind := rest ▸ List.mem_cons_self
            obtain ⟨firstIn,_,sameEntity⟩ := mem_ofEntityKind.mp firstRow
            have address := (refines.addresses first (mem_without.mp firstIn).1 sub member).mp sameEntity
            rw [bucketOf,(Prod.mk.inj address).1,(Prod.mk.inj address).2]
            rfl
        · rw [if_neg same,ofEntityKind_without]
          have untouched : without (ofEntityKind subs entity kind) sub.id = ofEntityKind subs entity kind := by
            refine without_unknown fun row inOther sameId => same ?_
            obtain ⟨rowIn,rowKind,rowEntity⟩ := mem_ofEntityKind.mp inOther
            rw [← rowKind,← rowEntity,ordered.inj rowIn member sameId]
            exact ⟨rfl,rfl⟩
          rw [untouched]
          exact refines.buckets entity kind
      noEmpty := noEmpty_putBack refines.noEmpty _ _ _ _
      bySub := bySub_without ordered refines.bySub sub.id
      byOwner := refines.byOwner.drop ordered byId member
      byEntity := refines.byEntity.drop ordered byId member
      kindCounts := countDown_lookup ordered refines.kindCounts member
      kindEntities := by
        refine kindEntities_remove ordered refines.addresses refines.kindEntities member rfl ?_
        cases rows : ofEntityKind subs sub.entity sub.kind with
        | nil => simp
        | cons first others =>
          have firstRow : first ∈ ofEntityKind subs sub.entity sub.kind := rows ▸ List.mem_cons_self
          simp only [List.map_cons,List.head?_cons,Option.any_some,beq_iff_eq,Option.some.injEq]
          exact ⟨rowsOrdered.inj firstRow inRows,congrArg Sub.id⟩ }
  · simp only [removedEntry,restRows,List.isEmpty_map]

theorem Refines.removeSub_unknown (refines : Refines store subs) {id : Nat} (unknown : ∀ sub ∈ subs, sub.id ≠ id) :
    store.removeSub id = (store,none) := by
  have absent : (subs.find? fun sub => sub.id == id) = none := by
    rw [List.find?_eq_none]
    exact fun sub member equal => unknown sub member (beq_iff_eq.mp equal)
  simp only [HookStore.removeSub,refines.bySub id,absent,Option.map_none]

end Remove

section Views

theorem Refines.snapshot {store : HookStore H} {subs : List (Sub H)} (refines : Refines store subs) (entity : Nat) (kind : String) :
    store.snapshot entity kind =
      (subs.filter fun sub => sub.kind == kind && sub.entity == entity).map fun sub => (sub.owner,sub.generation,sub.handler) := by
  have rows : ofEntityKind subs entity kind = subs.filter fun sub => sub.kind == kind && sub.entity == entity := by
    rw [ofEntityKind,ofKind,List.filter_filter]
    simp only [Bool.and_comm]
  rw [HookStore.snapshot,refines.buckets,← rows]
  cases ofEntityKind subs entity kind with
  | nil => rfl
  | cons first others =>
    rw [bucketOf,Option.map_some,Option.getD_some,List.map_map]
    rfl

theorem Refines.kindActive {store : HookStore H} {subs : List (Sub H)} (refines : Refines store subs) (kind : String) :
    store.kindActive kind = true ↔ ∃ sub ∈ subs, sub.kind = kind := by
  have counted : (positive (ofKind subs kind).length).getD 0 = (ofKind subs kind).length := by
    rw [positive]
    split
    · next none => rw [none,Option.getD_none]
    · rfl
  rw [HookStore.kindActive,refines.kindCounts,counted,bne_iff_ne,Nat.ne_zero_iff_zero_lt,List.length_pos_iff_exists_mem]
  simp only [ofKind,List.mem_filter,beq_iff_eq]

theorem Refines.kindEntitiesOf {store : HookStore H} {subs : List (Sub H)} (refines : Refines store subs) (kind : String) :
    store.kindEntitiesOf kind = (firsts Sub.entity (ofKind subs kind)).map Sub.place := by
  rw [HookStore.kindEntitiesOf,refines.kindEntities,nonEmpty_getD,List.map_map]
  rfl

end Views

end S2Script.Sdkhooks
