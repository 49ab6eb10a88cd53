import S2Script.EngineCopyBudget
import S2Script.OneChange

/-! The books of a copy budget: what every row and the process should hold, and what each
critical section does to them. -/
namespace S2Script.EngineFunctionCopy

open AsyncLimits OneChange

/-- The fixed part of a row that holds so many operations. -/
def rowCharge (count : Nat) : Nat := if count = 0 then 0 else rowSize

/-- The budget's cells against the operations and the bytes each row should hold. -/
structure Books (b : Budget) (count load : Index → Nat) : Prop where
  items : ∀ r, (b.owners r).items = count r
  bytes : ∀ r, (b.owners r).bytes = rowCharge (count r) + load r
  totalItems : b.metrics.items = ∑ r, count r
  totalOwners : b.metrics.owners = ∑ r, if count r = 0 then 0 else 1
  totalBytes : b.metrics.bytes = ∑ r, (rowCharge (count r) + load r)
  distinct : ∀ r r', count r ≠ 0 → count r' ≠ 0 → (b.owners r).key = (b.owners r').key → r = r'
  processBytes : b.metrics.bytes ≤ ProcessBytes
  processItems : b.metrics.items ≤ ProcessItems
  ownerBytes : ∀ r, (b.owners r).bytes ≤ OwnerBytes
  ownerItems : ∀ r, (b.owners r).items ≤ OwnerItems

theorem Books.new : Books .new (fun _ => 0) (fun _ => 0) := by
  constructor <;> simp [Budget.new,Row.default,rowCharge]

theorem Books.reject {b : Budget} {count load : Index → Nat} (books : Books b count load) :
    Books b.reject count load :=
  ⟨books.items,books.bytes,books.totalItems,books.totalOwners,books.totalBytes,books.distinct,
    books.processBytes,books.processItems,books.ownerBytes,books.ownerItems⟩

/-- Rewriting one row rewrites its books. -/
theorem Books.change {b b' : Budget} {count load : Index → Nat} (books : Books b count load) (row : Index)
    (n bytes : Nat) (others : ∀ r, r ≠ row → b'.owners r = b.owners r) (items : (b'.owners row).items = n)
    (held : (b'.owners row).bytes = rowCharge n + bytes)
    (totalItems : b'.metrics.items + count row = b.metrics.items + n)
    (totalOwners : b'.metrics.owners + (if count row = 0 then 0 else 1) = b.metrics.owners + if n = 0 then 0 else 1)
    (totalBytes : b'.metrics.bytes + (rowCharge (count row) + load row) = b.metrics.bytes + (rowCharge n + bytes))
    (distinct : n ≠ 0 → ∀ r, r ≠ row → count r ≠ 0 → (b.owners r).key ≠ (b'.owners row).key)
    (processBytes : b'.metrics.bytes ≤ ProcessBytes) (processItems : b'.metrics.items ≤ ProcessItems)
    (ownerBytes : rowCharge n + bytes ≤ OwnerBytes) (ownerItems : n ≤ OwnerItems) :
    Books b' (Function.update count row n) (Function.update load row bytes) where
  items r := by
    rcases eq_or_ne r row with rfl | other
    · simpa using items
    · simpa [others r other,other] using books.items r
  bytes r := by
    rcases eq_or_ne r row with rfl | other
    · simpa using held
    · simpa [others r other,other] using books.bytes r
  totalItems := by
    have sums := sum_change (f := count) (g := Function.update count row n) row (by simp +contextual)
    have before := books.totalItems
    rw [Function.update_self] at sums
    omega
  totalOwners := by
    have sums := sum_change (f := fun r => if count r = 0 then 0 else 1)
      (g := fun r => if Function.update count row n r = 0 then 0 else 1) row (by simp +contextual)
    have before := books.totalOwners
    simp only [Function.update_self] at sums
    omega
  totalBytes := by
    have sums := sum_change (f := fun r => rowCharge (count r) + load r)
      (g := fun r => rowCharge (Function.update count row n r) + Function.update load row bytes r) row
      (by simp +contextual)
    have before := books.totalBytes
    simp only [Function.update_self] at sums
    omega
  distinct := by
    intro r r' used used' same
    by_cases here : r = row <;> by_cases here' : r' = row
    · rw [here,here']
    · rw [here,Function.update_self] at used
      rw [Function.update_of_ne here'] at used'
      rw [here,others r' here'] at same
      exact absurd same.symm (distinct used r' here' used')
    · rw [here',Function.update_self] at used'
      rw [Function.update_of_ne here] at used
      rw [here',others r here] at same
      exact absurd same (distinct used' r here used)
    · rw [Function.update_of_ne here] at used
      rw [Function.update_of_ne here'] at used'
      rw [others r here,others r' here'] at same
      exact books.distinct r r' used used' same
  processBytes := processBytes
  processItems := processItems
  ownerBytes r := by
    rcases eq_or_ne r row with rfl | other
    · rw [held]
      exact ownerBytes
    · rw [others r other]
      exact books.ownerBytes r
  ownerItems r := by
    rcases eq_or_ne r row with rfl | other
    · rw [items]
      exact ownerItems
    · rw [others r other]
      exact books.ownerItems r

theorem seek_found {owners : Index → Row} {key : OwnerGeneration} {row : Index} :
    ∀ {l : List Index} {empty : Option Index}, seek owners key l empty = some row →
      (∀ i ∈ empty, (owners i).items = 0) →
      (owners row).items = 0 ∧ (∀ i ∈ l, (owners i).items ≠ 0 → (owners i).key ≠ key) ∨
        (owners row).items ≠ 0 ∧ (owners row).key = key := by
  intro l
  induction l with
  | nil =>
    intro empty found vacant
    exact .inl ⟨vacant row found,by simp⟩
  | cons i rest ih =>
    intro empty found vacant
    simp only [seek] at found
    split at found
    next unused =>
      rcases ih found (by cases empty <;> simp_all) with ⟨none,others⟩ | held
      · exact .inl ⟨none,by simpa [unused] using others⟩
      · exact .inr held
    next used =>
      split at found
      next same =>
        obtain rfl := Option.some.inj found
        exact .inr ⟨used,same⟩
      next different =>
        rcases ih found vacant with ⟨none,others⟩ | held
        · exact .inl ⟨none,by simpa [used,different] using others⟩
        · exact .inr held

theorem mem_scanned (row : Index) : row ∈ scanned := List.mem_finRange row

theorem less_of_le {a b : Nat} (le : b ≤ a) : less a b = some (a - b) := if_pos le

/-- What an admitted `Begin` did. -/
structure Admitted (b b' : Budget) (key : OwnerGeneration) (row : Index) : Prop where
  others : ∀ r, r ≠ row → b'.owners r = b.owners r
  keyed : (b'.owners row).key = key
  joined : (b.owners row).items ≠ 0 → (b.owners row).key = key

/-- `Begin` charges one operation to the row of its key, or refuses. -/
theorem Books.begin {b : Budget} {count load : Index → Nat} (books : Books b count load) (key : OwnerGeneration)
    (allocated : Bool) :
    b.begin key allocated = some (b.reject,none) ∨
      ∃ b' row, b.begin key allocated = some (b',some row) ∧ Admitted b b' key row ∧
        Books b' (Function.update count row (count row + 1))
          (Function.update load row (load row + operationStateSize)) := by
  unfold Budget.begin
  split
  next => exact .inl rfl
  next row found =>
    have total := books.processBytes
    have items := books.items row
    have bytes := books.bytes row
    simp only [less_of_le books.processBytes,less_of_le (books.ownerBytes row),Option.bind_eq_bind,Option.bind_some]
    split
    next => exact .inl rfl
    next open_ =>
      simp only [not_or,Nat.not_lt] at open_
      obtain ⟨itemsRoom,room,ownItems,ownRoom,_⟩ := open_
      have place := seek_found found (by simp)
      have limitItems := books.processItems
      have limitOwn := books.ownerItems row
      have limitBytes := books.ownerBytes row
      have charged : (b.owners row).charge + rowCharge (count row) = rowCharge (count row + 1) + operationStateSize := by
        rw [Row.charge,items,rowCharge,rowCharge,if_neg (Nat.succ_ne_zero _)]
        split <;> omega
      have keyed : (if (b.owners row).items = 0 then key else (b.owners row).key) = key := by
        split
        · rfl
        next used => exact (place.resolve_left fun ⟨vacant,_⟩ => used vacant).2
      refine .inr ⟨_,row,rfl,⟨fun r other => ?_,?_,fun used => ?_⟩,?_⟩
      · simp [other]
      · simpa using keyed
      · exact (place.resolve_left fun ⟨vacant,_⟩ => used vacant).2
      refine books.change row _ _ (fun r other => ?_) ?_ ?_ ?_ ?_ ?_ (fun _ r other used => ?_) ?_ ?_ ?_ ?_
      · simp [other]
      · simp [items]
      · simp only [Function.update_self]
        omega
      · simp only
        omega
      · simp only [items]
        split <;> simp
      · simp only
        omega
      · simp only [Function.update_self]
        rw [keyed]
        rcases place with ⟨_,others⟩ | ⟨joined,same⟩
        · exact others r (mem_scanned r) (by rwa [books.items])
        · intro also
          exact other (books.distinct r row used (by rwa [← items]) (also.trans same.symm))
      · simp only
        omega
      · simp only
        omega
      · omega
      · omega

/-- `Reserve` charges bytes to a row in use, or refuses. -/
theorem Books.reserve {b : Budget} {count load : Index → Nat} (books : Books b count load) {row : Index}
    (used : count row ≠ 0) {held : Nat} (limit : held ≤ OperationBytes) (bytes : Nat) :
    b.reserve row held bytes = some (b.reject,false) ∨
      ∃ b', b.reserve row held bytes = some (b',true) ∧ (∀ r, (b'.owners r).key = (b.owners r).key) ∧
        held + bytes ≤ OperationBytes ∧ Books b' count (Function.update load row (load row + bytes)) := by
  have total := books.processBytes
  have cell := books.bytes row
  simp only [Budget.reserve,less_of_le limit,less_of_le (books.ownerBytes row),less_of_le total,
    Option.bind_eq_bind,Option.bind_some]
  split
  next => exact .inl rfl
  next open_ =>
    simp only [not_or,Nat.not_lt] at open_
    have ownLimit := books.ownerBytes row
    refine .inr ⟨_,rfl,fun r => ?_,by omega,?_⟩
    · rcases eq_or_ne r row with rfl | other
      · simp
      · simp [other]
    · rw [show count = Function.update count row (count row) by simp]
      refine books.change row _ _ (fun r other => ?_) ?_ ?_ rfl rfl ?_ (fun _ r other also => ?_) ?_
        books.processItems ?_ ?_
      · simp [other]
      · simpa using books.items row
      · simp only [Function.update_self]
        omega
      · simp only
        omega
      · simp only [Function.update_self]
        intro same
        exact other (books.distinct r row also used same)
      · simp only
        omega
      · omega
      · rw [← books.items]
        exact books.ownerItems row

/-- Bytes returned to a row that stays in use. -/
theorem Books.uncharge {b : Budget} {count load : Index → Nat} (books : Books b count load) {row : Index}
    (used : count row ≠ 0) {rest amount : Nat} (held : load row = rest + amount) :
    ∃ b', b.uncharge row amount = some b' ∧ (∀ r, (b'.owners r).key = (b.owners r).key) ∧
      Books b' count (Function.update load row rest) := by
  have cell := books.bytes row
  have own := books.ownerBytes row
  have total := books.processBytes
  have part : rowCharge (count row) + load row ≤ b.metrics.bytes := by
    rw [books.totalBytes]
    exact term_le_sum (fun r => rowCharge (count r) + load r) row
  have ownLess : less (b.owners row).bytes amount = some (rowCharge (count row) + rest) := less_eq (by omega)
  have less := less_of_le (a := b.metrics.bytes) (b := amount) (by omega)
  simp only [Budget.uncharge,ownLess,less,Option.bind_eq_bind,Option.bind_some]
  refine ⟨_,rfl,fun r => ?_,?_⟩
  · rcases eq_or_ne r row with rfl | other
    · simp
    · simp [other]
  · rw [show count = Function.update count row (count row) by simp]
    refine books.change row _ _ (fun r other => ?_) ?_ ?_ rfl rfl ?_ (fun _ r other also => ?_) ?_
      books.processItems ?_ ?_
    · simp [other]
    · simpa using books.items row
    · simp
    · simp only
      omega
    · simp only [Function.update_self]
      intro same
      exact other (books.distinct r row also used same)
    · simp only
      omega
    · omega
    · rw [← books.items]
      exact books.ownerItems row

/-- One operation taken off its row, which is emptied with its last one. -/
theorem Books.settle {b : Budget} {count load : Index → Nat} (books : Books b count load) {row : Index}
    {left rest : Nat} (counted : count row = left + 1) (held : load row = rest + operationStateSize)
    (last : left = 0 → rest = 0) :
    ∃ b', b.settle row = some b' ∧ (left ≠ 0 → (b'.owners row).key = (b.owners row).key) ∧
      (∀ r, r ≠ row → b'.owners r = b.owners r) ∧
      Books b' (Function.update count row left) (Function.update load row rest) := by
  have cell := books.bytes row
  have own := books.ownerBytes row
  have total := books.processBytes
  have items := books.items row
  have limitItems := books.processItems
  have limitOwn := books.ownerItems row
  have charge : rowCharge (count row) = rowSize := by rw [rowCharge,if_neg (by omega)]
  have part : rowCharge (count row) + load row ≤ b.metrics.bytes := by
    rw [books.totalBytes]
    exact term_le_sum (fun r => rowCharge (count r) + load r) row
  have partItems : count row ≤ b.metrics.items := by
    rw [books.totalItems]
    exact term_le_sum count row
  have partOwners : 1 ≤ b.metrics.owners := by
    rw [books.totalOwners]
    have := term_le_sum (fun r => if count r = 0 then 0 else 1) row
    rwa [if_neg (by omega)] at this
  have ownLess : less (b.owners row).bytes operationStateSize = some (rowSize + rest) := less_eq (by omega)
  have totalLess := less_of_le (a := b.metrics.bytes) (b := operationStateSize) (by omega)
  have itemsLess := less_of_le (a := b.metrics.items) (b := 1) (by omega)
  have leftLess : less (b.owners row).items 1 = some left := less_eq (by omega)
  simp only [Budget.settle,ownLess,totalLess,itemsLess,leftLess,Option.bind_eq_bind,Option.bind_some]
  split
  next none =>
    have nothing := last none
    have free : rowCharge left = 0 := by rw [rowCharge,if_pos none]
    simp only [less_of_le (a := b.metrics.bytes - operationStateSize) (b := rowSize) (by omega),
      less_of_le partOwners,Option.bind_some]
    refine ⟨_,rfl,fun some => absurd none some,fun r other => by simp [other],?_⟩
    refine books.change row _ _ (fun r other => ?_) ?_ ?_ ?_ ?_ ?_ (fun some => absurd none some) ?_ ?_ ?_ ?_
    · simp [other]
    · simp [Row.default,none]
    · simp [Row.default,free,nothing]
    · simp only
      omega
    · simp only [none,counted]
      simp
      omega
    · simp only
      omega
    · simp only
      omega
    · simp only
      omega
    · simp [free,nothing]
    · omega
  next some =>
    have charge' : rowCharge left = rowSize := by rw [rowCharge,if_neg some]
    refine ⟨_,rfl,fun _ => by simp,fun r other => by simp [other],?_⟩
    refine books.change row _ _ (fun r other => ?_) ?_ ?_ ?_ ?_ ?_ (fun _ r other also => ?_) ?_ ?_ ?_ ?_
    · simp [other]
    · simp
    · simp [charge']
    · simp only
      omega
    · simp [some,counted]
    · simp only
      omega
    · simp only [Function.update_self]
      intro same
      exact other (books.distinct r row also (by omega) same)
    · simp only
      omega
    · simp only
      omega
    · omega
    · omega

end S2Script.EngineFunctionCopy
