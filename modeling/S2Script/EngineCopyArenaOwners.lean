import S2Script.EngineCopyArenaPlan
import S2Script.OneChange

/-! The owners of the intern arena: every row holds the sums of what its owner introduced, and a
batch charges each of its owners one row. -/
namespace S2Script.EngineCopyArena

open EngineFunctionCopy (StableOwner)
open OneChange

/-- The owner rows against the values and the bytes of each owner. -/
structure Rows (owners : Row → PermanentOwner) (n : Nat) (count size : StableOwner → Nat) : Prop where
  values : ∀ r, (owners r).values ≠ 0 → (owners r).values = count (owners r).key
  bytes : ∀ r, (owners r).values ≠ 0 → (owners r).bytes = size (owners r).key
  unused : ∀ r, (owners r).values = 0 → (owners r).bytes = 0
  none : ∀ k, count k = 0 → size k = 0
  rowed : ∀ k, count k ≠ 0 → ∃ r, (owners r).values ≠ 0 ∧ (owners r).key = k
  distinct : ∀ r r', (owners r).values ≠ 0 → (owners r').values ≠ 0 → (owners r).key = (owners r').key → r = r'
  ownerPayload : ∀ r, (owners r).bytes ≤ OwnerPayload
  ownerValues : ∀ r, (owners r).values ≤ OwnerValues
  used : n = ∑ r, if (owners r).values = 0 then 0 else 1

theorem Rows.new (mapped : Bool) : Rows (Arena.new mapped).owners 0 (fun _ => 0) (fun _ => 0) := by
  constructor <;> simp [Arena.new]

/-- The row a charge may be written to: its owner's, or an empty one of an owner without. -/
def Fresh (owners : Row → PermanentOwner) (c : OwnerCharge) : Prop :=
  (owners c.row).values ≠ 0 ∧ (owners c.row).key = c.key ∨
    (owners c.row).values = 0 ∧ ∀ r, (owners r).values ≠ 0 → (owners r).key ≠ c.key

structure Fits (owners : Row → PermanentOwner) (c : OwnerCharge) : Prop where
  positive : 0 < c.values
  bytes : (owners c.row).bytes + c.bytes ≤ OwnerPayload
  values : (owners c.row).values + c.values ≤ OwnerValues

variable {a : Arena} {count size : StableOwner → Nat}

/-- One charge written to its row. -/
theorem Rows.write (rows : Rows a.owners a.metrics.owners count size) {c : OwnerCharge} (fresh : Fresh a.owners c)
    (fits : Fits a.owners c) :
    Rows (a.writeOwner c).owners (a.writeOwner c).metrics.owners (Function.update count c.key (count c.key + c.values))
      (Function.update size c.key (size c.key + c.bytes)) := by
  have here : ((a.writeOwner c).owners c.row) = ⟨c.key,size c.key + c.bytes,count c.key + c.values⟩ := by
    simp only [Arena.writeOwner,Function.update_self]
    rcases fresh with ⟨used,key⟩ | ⟨unused,others⟩
    · rw [if_neg used,rows.values _ used,rows.bytes _ used,key]
    · have absent : count c.key = 0 := by
        by_contra some
        obtain ⟨r,held,same⟩ := rows.rowed _ some
        exact others r held same
      rw [if_pos unused,unused,rows.unused _ unused,absent,rows.none _ absent]
  have others : ∀ r, r ≠ c.row → (a.writeOwner c).owners r = a.owners r := fun r other => Function.update_of_ne other _ _
  have elsewhere : ∀ r, r ≠ c.row → (a.owners r).values ≠ 0 → (a.owners r).key ≠ c.key := by
    intro r other used same
    rcases fresh with ⟨also,key⟩ | ⟨_,none⟩
    · exact other (rows.distinct r c.row used also (same.trans key.symm))
    · exact none r used same
  have positive := fits.positive
  have sum : (a.writeOwner c).owners c.row = ⟨c.key,(a.owners c.row).bytes + c.bytes,(a.owners c.row).values + c.values⟩ := by
    simp only [Arena.writeOwner,Function.update_self]
    rcases fresh with ⟨used,key⟩ | ⟨unused,_⟩
    · rw [if_neg used,key]
    · rw [if_pos unused]
  constructor
  · intro r used
    rcases eq_or_ne r c.row with rfl | other
    · rw [here,Function.update_self]
    · rw [others r other] at used ⊢
      rw [Function.update_of_ne (elsewhere r other used)]
      exact rows.values r used
  · intro r used
    rcases eq_or_ne r c.row with rfl | other
    · rw [here,Function.update_self]
    · rw [others r other] at used ⊢
      rw [Function.update_of_ne (elsewhere r other used)]
      exact rows.bytes r used
  · intro r unused
    rcases eq_or_ne r c.row with rfl | other
    · rw [here] at unused
      simp only at unused
      omega
    · rw [others r other] at unused ⊢
      exact rows.unused r unused
  · intro k zero
    rcases eq_or_ne k c.key with rfl | other
    · rw [Function.update_self] at zero
      omega
    · rw [Function.update_of_ne other] at zero ⊢
      exact rows.none k zero
  · intro k some
    rcases eq_or_ne k c.key with rfl | other
    · refine ⟨c.row,?_,by rw [here]⟩
      rw [here]
      simp only
      omega
    · rw [Function.update_of_ne other] at some
      obtain ⟨r,used,same⟩ := rows.rowed k some
      have apart : r ≠ c.row := by
        rintro rfl
        rcases fresh with ⟨_,key⟩ | ⟨unused,_⟩
        · exact other (same.symm.trans key)
        · exact used unused
      exact ⟨r,by rw [others r apart]; exact used,by rw [others r apart]; exact same⟩
  · intro r r' used used' same
    by_cases first : r = c.row <;> by_cases second : r' = c.row
    · rw [first,second]
    · rw [others r' second] at used' same
      rw [first,here] at same
      exact absurd same.symm (elsewhere r' second used')
    · rw [others r first] at used same
      rw [second,here] at same
      exact absurd same (elsewhere r first used)
    · rw [others r first] at used same
      rw [others r' second] at used' same
      exact rows.distinct r r' used used' same
  · intro r
    rcases eq_or_ne r c.row with rfl | other
    · rw [sum]
      exact fits.bytes
    · rw [others r other]
      exact rows.ownerPayload r
  · intro r
    rcases eq_or_ne r c.row with rfl | other
    · rw [sum]
      exact fits.values
    · rw [others r other]
      exact rows.ownerValues r
  · have sums := sum_change (f := fun r => if (a.owners r).values = 0 then 0 else 1)
      (g := fun r => if ((a.writeOwner c).owners r).values = 0 then 0 else 1) c.row
      (fun r other => by rw [others r other])
    have before := rows.used
    have after : (a.writeOwner c).metrics.owners =
        if (a.owners c.row).values = 0 then a.metrics.owners + 1 else a.metrics.owners := rfl
    rw [after]
    have some : (a.owners c.row).values + c.values ≠ 0 := by omega
    simp only [sum] at sums
    rw [if_neg some] at sums
    by_cases unused : (a.owners c.row).values = 0
    · rw [if_pos unused] at sums ⊢
      omega
    · rw [if_neg unused] at sums ⊢
      omega

/-- What a list of charges adds to an owner. -/
def added (f : OwnerCharge → Nat) (charges : List OwnerCharge) (k : StableOwner) : Nat :=
  ((charges.find? fun c => c.key = k).map f).getD 0

theorem added_cons (f : OwnerCharge → Nat) (c : OwnerCharge) (charges : List OwnerCharge) (k : StableOwner) :
    added f (c :: charges) k = if c.key = k then f c else added f charges k := by
  by_cases same : c.key = k <;> simp [added,same]

theorem added_absent (f : OwnerCharge → Nat) {charges : List OwnerCharge} {k : StableOwner}
    (absent : k ∉ charges.map OwnerCharge.key) : added f charges k = 0 := by
  have none : charges.find? (fun c => c.key = k) = .none := by
    rw [List.find?_eq_none]
    intro c member same
    exact absent (List.mem_map.mpr ⟨c,member,by simpa using same⟩)
  rw [added,none]
  rfl

/-- All charges of a batch written, each to a row of its own. -/
theorem Rows.commit {charges : List OwnerCharge} (keys : (charges.map OwnerCharge.key).Nodup)
    (apart : (charges.map OwnerCharge.row).Nodup) :
    ∀ {a : Arena} {count size : StableOwner → Nat}, Rows a.owners a.metrics.owners count size →
      (∀ c ∈ charges, Fresh a.owners c ∧ Fits a.owners c) →
      Rows (charges.foldl Arena.writeOwner a).owners (charges.foldl Arena.writeOwner a).metrics.owners
        (fun k => count k + added OwnerCharge.values charges k) (fun k => size k + added OwnerCharge.bytes charges k) := by
  induction charges with
  | nil =>
    intro a count size rows _
    exact rows
  | cons c rest ih =>
    intro a count size rows ready
    obtain ⟨key,keys⟩ := List.nodup_cons.mp keys
    obtain ⟨row,apart⟩ := List.nodup_cons.mp apart
    obtain ⟨fresh,fits⟩ := ready c List.mem_cons_self
    have written := rows.write fresh fits
    have sums : ∀ (f : StableOwner → Nat) (g : OwnerCharge → Nat),
        (fun k => Function.update f c.key (f c.key + g c) k + added g rest k) = fun k => f k + added g (c :: rest) k := by
      intro f g
      funext k
      rw [added_cons]
      rcases eq_or_ne k c.key with rfl | other
      · rw [Function.update_self,added_absent g key,if_pos rfl,Nat.add_zero]
      · rw [Function.update_of_ne other,if_neg other.symm]
    rw [← sums count OwnerCharge.values,← sums size OwnerCharge.bytes]
    refine ih keys apart written fun d member => ?_
    obtain ⟨also,room⟩ := ready d (List.mem_cons_of_mem c member)
    have other : d.row ≠ c.row := fun same => row (same ▸ List.mem_map_of_mem member)
    have different : c.key ≠ d.key := fun same => key (same ▸ List.mem_map_of_mem member)
    have same : (a.writeOwner c).owners d.row = a.owners d.row := Function.update_of_ne other _ _
    refine ⟨?_,?_⟩
    · rw [Fresh,same]
      refine also.imp (fun held => held) fun ⟨unused,none⟩ => ⟨unused,fun r used => ?_⟩
      rcases eq_or_ne r c.row with rfl | apart
      · have here : ((a.writeOwner c).owners c.row).key = c.key := by
          simp only [Arena.writeOwner,Function.update_self]
          rcases fresh with ⟨held,key⟩ | ⟨held,_⟩
          · rw [if_neg held,key]
          · rw [if_pos held]
        rw [here]
        exact different
      · have kept : (a.writeOwner c).owners r = a.owners r := Function.update_of_ne apart _ _
        rw [kept] at used ⊢
        exact none r used
    · exact ⟨room.positive,by rw [same]; exact room.bytes,by rw [same]; exact room.values⟩

/-- Entries that an owner introduced. -/
def ofOwner (entries : List Pending) (k : StableOwner) : List Pending := entries.filter fun p => p.owner = k

/-- The charges of the entries of a batch. -/
structure Charging (a : Arena) (charges : List OwnerCharge) (entries : List Pending) : Prop where
  keys : (charges.map OwnerCharge.key).Nodup
  rows : (charges.map OwnerCharge.row).Nodup
  fresh : ∀ c ∈ charges, Fresh a.owners c
  fits : ∀ c ∈ charges, Fits a.owners c
  values : ∀ c ∈ charges, c.values = (ofOwner entries c.key).length
  bytes : ∀ c ∈ charges, c.bytes = total (ofOwner entries c.key)
  charged : ∀ p ∈ entries, p.owner ∈ charges.map OwnerCharge.key

theorem Charging.nil (a : Arena) : Charging a [] [] := by
  constructor <;> simp

theorem seekRow_found {owners : Row → PermanentOwner} {charges : List OwnerCharge} {key : StableOwner} {row : Row} :
    ∀ {l : List Row} {empty : Option Row}, seekRow owners charges key l empty = some row →
      (∀ i ∈ empty, (owners i).values = 0 ∧ i ∉ charges.map OwnerCharge.row) →
      (owners row).values ≠ 0 ∧ (owners row).key = key ∨
        (owners row).values = 0 ∧ row ∉ charges.map OwnerCharge.row ∧
          ∀ i ∈ l, (owners i).values ≠ 0 → (owners i).key ≠ key := by
  intro l
  induction l with
  | nil =>
    intro empty found vacant
    obtain ⟨unused,free⟩ := vacant row found
    exact .inr ⟨unused,free,by simp⟩
  | cons i rest ih =>
    intro empty found vacant
    rw [seekRow] at found
    split at found
    next unused =>
      have vacant' : ∀ k ∈ (if charges.any fun c => c.row = i then empty else empty.or (some i)),
          (owners k).values = 0 ∧ k ∉ charges.map OwnerCharge.row := by
        intro k member
        split at member
        next => exact vacant k member
        next unreserved =>
          cases empty with
          | none =>
            obtain rfl : i = k := by simpa using member
            exact ⟨unused,by simpa using unreserved⟩
          | some _ => exact vacant k (by simpa using member)
      rcases ih found vacant' with held | ⟨none,free,others⟩
      · exact .inl held
      · exact .inr ⟨none,free,by simpa [unused] using others⟩
    next used =>
      split at found
      next same =>
        obtain rfl := Option.some.inj found
        exact .inl ⟨used,same⟩
      next different =>
        rcases ih found vacant with held | ⟨none,free,others⟩
        · exact .inl held
        · exact .inr ⟨none,free,by simpa [used,different] using others⟩

/-- A charge is raised where its row has room. -/
theorem OwnerCharge.add_cases (c : OwnerCharge) (a : Arena) (v : Value) :
    (∃ reason, c.add a v = .error (.reject reason)) ∨
      c.add a v = .ok { c with bytes := c.bytes + v.capacity, values := c.values + 1 } ∧
        c.bytes + v.capacity ≤ OwnerPayload - (a.owners c.row).bytes ∧
        c.values + 1 ≤ OwnerValues - (a.owners c.row).values := by
  simp only [OwnerCharge.add]
  split
  next => exact .inl ⟨_,rfl⟩
  next payload =>
    split
    next => exact .inl ⟨_,rfl⟩
    next values => exact .inr ⟨rfl,by omega,by omega⟩

/-- Which charge of a batch an entry raises: its owner's, or a new one behind them all. -/
theorem chargeFrom_cases (a : Arena) (charges : List OwnerCharge) (p : Pending) (l : List OwnerCharge) :
    (∃ reason, chargeFrom a charges p l = .error (.reject reason)) ∨
      (∃ before c after charge, l = before ++ c :: after ∧ c.key = p.owner ∧ c.add a p.source = .ok charge ∧
        chargeFrom a charges p l = .ok (before ++ charge :: after)) ∨
      ∃ row charge, p.owner ∉ l.map OwnerCharge.key ∧ seekRow a.owners charges p.owner rows none = some row ∧
        OwnerCharge.add ⟨p.owner,row,0,0⟩ a p.source = .ok charge ∧ chargeFrom a charges p l = .ok (l ++ [charge]) := by
  induction l with
  | nil =>
    simp only [chargeFrom]
    split
    next => exact .inl ⟨_,rfl⟩
    next row found =>
      rcases OwnerCharge.add_cases ⟨p.owner,row,0,0⟩ a p.source with ⟨reason,refused⟩ | ⟨added,_⟩
      · exact .inl ⟨reason,by rw [refused]; rfl⟩
      · exact .inr (.inr ⟨row,_,by simp,found,added,by rw [added]; rfl⟩)
  | cons c rest ih =>
    simp only [chargeFrom]
    split
    next same =>
      rcases c.add_cases a p.source with ⟨reason,refused⟩ | ⟨added,_⟩
      · exact .inl ⟨reason,by rw [refused]; rfl⟩
      · exact .inr (.inl ⟨[],c,rest,_,rfl,same,added,by rw [added]; rfl⟩)
    next different =>
      rcases ih with ⟨reason,refused⟩ | ⟨before,d,after,charge,rfl,same,added,run⟩ | ⟨row,charge,absent,found,added,run⟩
      · exact .inl ⟨reason,by rw [refused]; rfl⟩
      · exact .inr (.inl ⟨c :: before,d,after,charge,rfl,same,added,by rw [run]; rfl⟩)
      · exact .inr (.inr ⟨row,charge,by simpa [Ne.symm different] using absent,found,added,by rw [run]; rfl⟩)

theorem ofOwner_append (entries : List Pending) (p : Pending) (k : StableOwner) :
    ofOwner (entries ++ [p]) k = if p.owner = k then ofOwner entries k ++ [p] else ofOwner entries k := by
  by_cases same : p.owner = k <;> simp [ofOwner,same]

theorem total_singleton (p : Pending) : total [p] = p.source.capacity := by simp [total]

theorem mem_rows (row : Row) : row ∈ rows := by
  unfold rows
  exact List.mem_finRange row

theorem ofOwner_absent {charges : List OwnerCharge} {entries : List Pending} (charging : Charging a charges entries)
    {k : StableOwner} (absent : k ∉ charges.map OwnerCharge.key) : ofOwner entries k = [] := by
  rw [ofOwner,List.filter_eq_nil_iff]
  intro p member same
  have same : p.owner = k := by simpa using same
  exact absent (same ▸ charging.charged p member)

/-- One entry more is charged, or the batch is rejected. -/
theorem Charging.charge {charges : List OwnerCharge} {entries : List Pending} (charging : Charging a charges entries)
    (ownerRows : Rows a.owners a.metrics.owners count size) (p : Pending) :
    (∃ reason, chargeFrom a charges p charges = .error (.reject reason)) ∨
      ∃ charges', chargeFrom a charges p charges = .ok charges' ∧ Charging a charges' (entries ++ [p]) := by
  rcases chargeFrom_cases a charges p charges with refused | ⟨before,c,after,charge,split_,key,added,run⟩ |
    ⟨row,charge,absent,found,added,run⟩
  · exact .inl refused
  · -- the owner has a charge already
    refine .inr ⟨_,run,?_⟩
    have inside : c ∈ charges := by rw [split_]; simp
    have payload := ownerRows.ownerPayload c.row
    have values := ownerRows.ownerValues c.row
    rcases c.add_cases a p.source with ⟨reason,refused⟩ | ⟨raised,room,room'⟩
    · rw [refused] at added
      cases added
    obtain rfl := Except.ok.inj (raised.symm.trans added)
    have keys := charging.keys
    have rows := charging.rows
    have others : ∀ d ∈ before ++ after, d ∈ charges ∧ p.owner ≠ d.key := by
      intro d member
      rw [split_,List.map_append,List.map_cons] at keys
      have new := (List.nodup_middle.mp keys)
      rw [List.nodup_cons,← List.map_append] at new
      refine ⟨?_,fun same => new.1 (List.mem_map.mpr ⟨d,member,same.symm.trans key.symm⟩)⟩
      rw [split_]
      exact (List.perm_middle.symm.subset (List.mem_cons_of_mem c member))
    have members : ∀ {P : OwnerCharge → Prop},
        P { c with bytes := c.bytes + p.source.capacity, values := c.values + 1 } → (∀ d ∈ before ++ after, P d) →
        ∀ d ∈ before ++ { c with bytes := c.bytes + p.source.capacity, values := c.values + 1 } :: after, P d := by
      intro P here there d member
      rcases List.mem_cons.mp (List.perm_middle.subset member) with rfl | other
      · exact here
      · exact there d other
    have count := charging.values c inside
    have bytes := charging.bytes c inside
    refine ⟨by simpa [split_] using keys,by simpa [split_] using rows,?_,?_,?_,?_,?_⟩
    · exact members (charging.fresh c inside) fun d member => charging.fresh d (others d member).1
    · exact members ⟨Nat.succ_pos _,by simp only; omega,by simp only; omega⟩
        fun d member => charging.fits d (others d member).1
    · refine members ?_ fun d member => ?_
      · simp only [ofOwner_append,key,if_true,List.length_append,List.length_singleton]
        rw [count,key]
      · rw [ofOwner_append,if_neg (others d member).2]
        exact charging.values d (others d member).1
    · refine members ?_ fun d member => ?_
      · simp only [ofOwner_append,key,if_true,total_append,total_singleton]
        rw [bytes,key]
      · rw [ofOwner_append,if_neg (others d member).2]
        exact charging.bytes d (others d member).1
    · intro q member
      rcases List.mem_append.mp member with old | last
      · simpa [split_] using charging.charged q old
      · rw [List.mem_singleton.mp last]
        simp [key]
  · -- the owner gets a new charge
    refine .inr ⟨_,run,?_⟩
    have payload := ownerRows.ownerPayload row
    have values := ownerRows.ownerValues row
    rcases OwnerCharge.add_cases ⟨p.owner,row,0,0⟩ a p.source with ⟨reason,refused⟩ | ⟨raised,room,room'⟩
    · rw [refused] at added
      cases added
    obtain rfl := Except.ok.inj (raised.symm.trans added)
    have none := ofOwner_absent charging absent
    have place := seekRow_found found (by simp)
    have apart : row ∉ charges.map OwnerCharge.row := by
      rcases place with ⟨used,same⟩ | ⟨_,free,_⟩
      · intro member
        obtain ⟨d,inside,rfl⟩ := List.mem_map.mp member
        rcases charging.fresh d inside with ⟨_,key⟩ | ⟨unused,_⟩
        · exact absent (List.mem_map.mpr ⟨d,inside,key.symm.trans same⟩)
        · exact used unused
      · exact free
    have members : ∀ {P : OwnerCharge → Prop}, P ⟨p.owner,row,0 + p.source.capacity,0 + 1⟩ → (∀ d ∈ charges, P d) →
        ∀ d ∈ charges ++ [⟨p.owner,row,0 + p.source.capacity,0 + 1⟩], P d := by
      intro P here there d member
      rcases List.mem_append.mp member with old | last
      · exact there d old
      · exact List.mem_singleton.mp last ▸ here
    have others : ∀ d ∈ charges, p.owner ≠ d.key := fun d member same => absent (List.mem_map.mpr ⟨d,member,same.symm⟩)
    refine ⟨?_,?_,?_,?_,?_,?_,?_⟩
    · rw [List.map_append]
      exact (List.perm_append_singleton _ _).nodup_iff.mpr (List.nodup_cons.mpr ⟨absent,charging.keys⟩)
    · rw [List.map_append]
      exact (List.perm_append_singleton _ _).nodup_iff.mpr (List.nodup_cons.mpr ⟨apart,charging.rows⟩)
    · refine members ?_ charging.fresh
      exact place.imp (fun held => held) fun ⟨unused,_,others⟩ => ⟨unused,fun r => others r (mem_rows r)⟩
    · exact members ⟨Nat.succ_pos _,by simp only at room ⊢; omega,by simp only at room' ⊢; omega⟩ charging.fits
    · refine members (by simp [ofOwner_append,none]) fun d member => ?_
      rw [ofOwner_append,if_neg (others d member)]
      exact charging.values d member
    · refine members (by simp [ofOwner_append,none,total_singleton]) fun d member => ?_
      rw [ofOwner_append,if_neg (others d member)]
      exact charging.bytes d member
    · intro q member
      rw [List.map_append,List.mem_append]
      rcases List.mem_append.mp member with old | last
      · exact .inl (charging.charged q old)
      · rw [List.mem_singleton.mp last]
        exact .inr (by simp)

theorem Charging.chargeAll (ownerRows : Rows a.owners a.metrics.owners count size) (more : List Pending) :
    ∀ {charges : List OwnerCharge} {entries : List Pending}, Charging a charges entries →
      (∃ reason, chargeAll a more charges = .error (.reject reason)) ∨
        ∃ charges', chargeAll a more charges = .ok charges' ∧ Charging a charges' (entries ++ more) := by
  induction more with
  | nil =>
    intro charges entries charging
    exact .inr ⟨charges,rfl,by simpa using charging⟩
  | cons p rest ih =>
    intro charges entries charging
    rw [EngineCopyArena.chargeAll]
    rcases charging.charge ownerRows p with ⟨reason,refused⟩ | ⟨charges',run,next⟩
    · exact .inl ⟨reason,by rw [refused]; rfl⟩
    · rcases ih next with ⟨reason,refused⟩ | ⟨charges'',all,last⟩
      · exact .inl ⟨reason,by rw [run]; exact refused⟩
      · exact .inr ⟨charges'',by rw [run]; exact all,by simpa using last⟩

/-- What a batch's charges add to an owner is what it introduced. -/
theorem Charging.added_values {charges : List OwnerCharge} {entries : List Pending} (charging : Charging a charges entries)
    (k : StableOwner) : added OwnerCharge.values charges k = (ofOwner entries k).length ∧
      added OwnerCharge.bytes charges k = total (ofOwner entries k) := by
  by_cases absent : k ∈ charges.map OwnerCharge.key
  · cases found : charges.find? fun c => c.key = k with
    | none =>
      obtain ⟨c,member,same⟩ := List.mem_map.mp absent
      exact absurd same (by simpa using List.find?_eq_none.mp found c member)
    | some c =>
      have member := List.mem_of_find?_eq_some found
      have same : c.key = k := by simpa using List.find?_some found
      rw [added,added,found]
      exact ⟨same ▸ charging.values c member,same ▸ charging.bytes c member⟩
  · rw [added_absent _ absent,added_absent _ absent,ofOwner_absent charging absent]
    exact ⟨rfl,rfl⟩

end S2Script.EngineCopyArena
