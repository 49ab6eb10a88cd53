import S2Script.EngineCopyBudgetInvariant

/-! Native copy admission is exact in every interleaving: the gauges are the sums over the
operations and leases that exist, and no step underflows or touches a freed state. -/
namespace S2Script.EngineFunctionCopy

open AsyncLimits OneChange

variable {w : World}

theorem Exact.copyOperation (exact : Exact w) (i : Nat) :
    ∃ w', w.copyOperation i = some w' ∧ Exact w' := by
  rw [World.copyOperation]
  split
  next => exact ⟨w,rfl,exact⟩
  next => exact ⟨_,rfl,exact.emptyOperation⟩
  next id here =>
    have member := List.mem_of_getElem? here
    have counted := List.count_pos_iff.mpr member
    obtain ⟨s,found⟩ := exact.lookup id (by rw [World.handles]; omega)
    obtain ⟨refs,positive⟩ := exact.refs id s found
    simp only [World.retain,found,Option.bind_eq_bind,Option.bind_some,Option.pure_def]
    have books : Books w.budget w.count (Function.update w.load s.row (w.load s.row)) := by simpa using exact.books
    refine ⟨_,rfl,exact.change found rfl rfl (fun _ => rfl) books rfl ?_ (fun _ _ => rfl) ?_ ?_ ?_ ?_⟩
    · intro other different
      simp [World.handles,different.symm]
    · simp only [World.handles,List.count_append,List.count_singleton_self] at refs ⊢
      omega
    · simp
    · exact exact.bytes id s found
    · exact exact.limit id s found

theorem Exact.assignCopy (exact : Exact w) (i j : Nat) : ∃ w', w.assignCopy i j = some w' ∧ Exact w' := by
  rw [World.assignCopy]
  split
  next =>
    obtain ⟨copied,run,kept⟩ := exact.copyOperation j
    exact ⟨_,by rw [run]; rfl,(kept.swapOperations _ _).destroyOperation _⟩
  next => exact ⟨w,rfl,exact⟩

theorem Exact.assignMove (exact : Exact w) (i j : Nat) : Exact (w.assignMove i j) := by
  rw [World.assignMove]
  split
  next => exact ((exact.moveOperation j).swapOperations _ _).destroyOperation _
  next => exact exact

theorem Exact.reject (exact : Exact w) : Exact { w with budget := w.budget.reject } :=
  ⟨exact.books.reject,exact.refs,exact.alive,exact.bytes,exact.limit,exact.keyed,exact.settled,exact.fresh,
    exact.freed,exact.once⟩

/-- A reservation is a lease, or changes only the rejected counter. -/
theorem Exact.reserve (exact : Exact w) (i bytes : Nat) :
    w.reserve i bytes = some w ∨ w.reserve i bytes = some { w with budget := w.budget.reject } ∨
      ∃ w', w.reserve i bytes = some w' ∧ w'.leases.length = w.leases.length + 1 ∧ Exact w' := by
  rw [World.reserve]
  split
  next id here =>
    have member := List.mem_of_getElem? here
    have counted := List.count_pos_iff.mpr member
    obtain ⟨s,found⟩ := exact.lookup id (by rw [World.handles]; omega)
    obtain ⟨refs,positive⟩ := exact.refs id s found
    have used := count_pos found
    simp only [found,Option.bind_eq_bind,Option.bind_some]
    rcases exact.books.reserve used (exact.limit id s found) bytes with refused | ⟨budget,admitted,keys,limit,books⟩
    · exact .inr (.inl (by simp only [refused,Option.bind_some,Option.pure_def]))
    · simp only [admitted,Option.bind_some,Option.pure_def]
      refine .inr (.inr ⟨_,rfl,by simp,exact.change found rfl rfl keys books ?_ ?_ ?_ ?_ ?_ ?_ limit⟩)
      · simp only
        omega
      · intro other different
        simp [World.handles,different.symm]
      · intro other different
        simp [World.leased,different.symm]
      · simp only [World.handles,List.map_append,List.map_cons,List.map_nil,List.count_append,
          List.count_singleton_self] at refs ⊢
        omega
      · simp
      · have := exact.bytes id s found
        simp only [World.leased,List.map_append,List.map_cons,List.map_nil,List.sum_append,List.sum_cons,
          List.sum_nil,if_true] at this ⊢
        omega
  next => exact .inl rfl

theorem Exact.destroyLease (exact : Exact w) (i : Nat) : ∃ w', w.destroyLease i = some w' ∧ Exact w' := by
  rw [World.destroyLease]
  split
  next => exact ⟨w,rfl,exact⟩
  next here =>
    have dropped := eraseIdx_perm here
    refine ⟨_,rfl,exact.setLeases (fun id => ?_) fun id => ?_⟩
    · rw [(dropped.map Lease.state).count_eq]
      simp
    · rw [World.leased,(dropped.map _).sum_eq]
      simp
  next id amount here =>
    have dropped := eraseIdx_perm here
    have counts := fun other => (dropped.map Lease.state).count_eq (some other)
    have sums := fun other => (dropped.map fun l => if l.state = some other then l.bytes else 0).sum_eq
    simp only [List.map_cons,List.sum_cons] at counts sums
    obtain ⟨s,found⟩ := exact.lookup id (by rw [World.handles,counts]; simp)
    obtain ⟨refs,positive⟩ := exact.refs id s found
    have bytes := exact.bytes id s found
    have limit := exact.limit id s found
    have share := sums id
    simp only [World.leased] at bytes
    simp only [if_true] at share
    have part := Table.charge_le_weight (bytesIn s.row) found
    simp only [bytesIn,if_true] at part
    have held : w.load s.row = (w.load s.row - amount) + amount := by
      rw [World.load]
      omega
    obtain ⟨budget,returned,keys,books⟩ := exact.books.uncharge (count_pos found) held
    have left : less s.bytes amount = some (s.bytes - amount) := less_of_le (by omega)
    simp only [found,left,returned,Option.bind_eq_bind,Option.bind_some,Option.pure_def]
    refine ⟨_,rfl,exact.change found rfl rfl keys books ?_ ?_ ?_ ?_ positive ?_ ?_⟩
    · simp only
      omega
    · intro other different
      simp [World.handles,counts,different.symm]
    · intro other different
      simp [World.leased,sums,different.symm]
    · rw [refs]
      simp only [World.handles,counts,List.count_append,List.count_cons_self,List.count_nil]
      omega
    · simp only [World.leased]
      omega
    · simp only
      omega

theorem Exact.assignLease (exact : Exact w) (i j : Nat) : ∃ w', w.assignLease i j = some w' ∧ Exact w' := by
  rw [World.assignLease]
  split
  next => exact ((exact.moveLease j).swapLeases _ _).destroyLease _
  next => exact ⟨w,rfl,exact⟩

theorem Exact.release (exact : Exact w) (i : Nat) : ∃ w', w.release i = some w' ∧ Exact w' := by
  rw [World.release]
  split
  next => exact ⟨w,rfl,exact⟩
  next id here =>
    have dropped := eraseIdx_perm here
    have counts := fun other => dropped.count_eq other
    obtain ⟨s,found⟩ := exact.lookup id (by rw [World.handles,counts]; simp)
    obtain ⟨refs,positive⟩ := exact.refs id s found
    have left : less s.refs 1 = some (s.refs - 1) := less_of_le positive
    have fewer : ∀ other, World.handles { w with closing := w.closing.eraseIdx i } other + (if other = id then 1 else 0) =
        w.handles other := by
      intro other
      simp only [World.handles,counts,List.count_cons,beq_iff_eq,eq_comm (a := other)]
      omega
    have own := fewer id
    simp only [if_true] at own
    simp only [found,left,Option.bind_eq_bind,Option.bind_some,Option.pure_def]
    split
    next last =>
      refine ⟨_,rfl,?_⟩
      have gone : World.handles { w with closing := w.closing.eraseIdx i } id = 0 := by omega
      have same : ∀ other, other ≠ id → World.handles { w with closing := w.closing.eraseIdx i } other = w.handles other := by
        intro other different
        have := fewer other
        rwa [if_neg different] at this
      have lookup : ∀ other t, (w.states.erase id).lookup other = some t → other ≠ id ∧ w.states.lookup other = some t := by
        intro other t still
        rw [Table.lookup_erase_eq] at still
        split at still
        · cases still
        next different => exact ⟨different,still⟩
      have bytes := exact.bytes id s found
      have nothing : w.leased id = 0 := leased_zero (w := { w with closing := w.closing.eraseIdx i }) gone
      constructor
      · have counts : World.count { w with
            states := w.states.erase id
            closing := w.closing.eraseIdx i
            settling := w.settling ++ [(id,s.row)] } = w.count := by
          funext r
          have := Table.weight_erase (inRow r) found
          simp only [inRow] at this
          simp only [World.count,List.map_append,List.map_cons,List.map_nil,List.count_append,List.count_singleton,
            beq_iff_eq]
          omega
        have loads : World.load { w with
            states := w.states.erase id
            closing := w.closing.eraseIdx i
            settling := w.settling ++ [(id,s.row)] } = w.load := by
          funext r
          have erased := Table.weight_erase (bytesIn r) found
          simp only [bytesIn,bytes,nothing] at erased
          simp only [World.load,List.map_append,List.map_cons,List.map_nil,List.count_append,List.count_singleton,
            beq_iff_eq,Nat.mul_add]
          by_cases inside : s.row = r
          · simp only [inside,if_true,Nat.mul_one] at erased ⊢
            omega
          · simp only [inside,if_false,Nat.mul_zero] at erased ⊢
            omega
        rw [counts,loads]
        exact exact.books
      · intro other t still
        obtain ⟨different,still⟩ := lookup other t still
        exact same other different ▸ exact.refs other t still
      · intro other held
        have different : other ≠ id := by
          rintro rfl
          exact absurd gone (by exact Nat.ne_of_gt held)
        rw [AList.mem_erase]
        exact ⟨different,exact.alive other (same other different ▸ held)⟩
      · exact fun other t still => exact.bytes other t (lookup other t still).2
      · exact fun other t still => exact.limit other t (lookup other t still).2
      · exact fun other t still => exact.keyed other t (lookup other t still).2
      · intro p member
        rcases List.mem_append.mp member with old | new
        · exact exact.settled p old
        · rw [List.mem_singleton.mp new]
          exact exact.keyed id s found
      · exact fun other member => exact.fresh other (AList.mem_erase.mp member).2
      · intro p member
        rw [AList.mem_erase]
        rcases List.mem_append.mp member with old | new
        · exact ⟨fun still => (exact.freed p old).1 still.2,(exact.freed p old).2⟩
        · rw [List.mem_singleton.mp new]
          exact ⟨fun still => still.1 rfl,exact.fresh id (Table.mem_of_lookup found)⟩
      · have absent : id ∉ w.settling.map Prod.fst := by
          intro member
          obtain ⟨p,inside,rfl⟩ := List.mem_map.mp member
          exact (exact.freed p inside).1 (Table.mem_of_lookup found)
        simp only [List.map_append,List.map_cons,List.map_nil]
        exact (List.perm_append_singleton id _).nodup_iff.mpr (List.nodup_cons.mpr ⟨absent,exact.once⟩)
    next more =>
      have books : Books w.budget w.count (Function.update w.load s.row (w.load s.row)) := by simpa using exact.books
      refine ⟨_,rfl,exact.change found rfl rfl (fun _ => rfl) books rfl ?_
        (fun _ _ => rfl) ?_ ?_ (exact.bytes id s found) (exact.limit id s found)⟩
      · intro other different
        have := fewer other
        rwa [if_neg different] at this
      · simp only [World.handles] at own refs ⊢
        omega
      · simp only
        omega

theorem Exact.settle (exact : Exact w) (i : Nat) : ∃ w', w.settle i = some w' ∧ Exact w' := by
  rw [World.settle]
  split
  next => exact ⟨w,rfl,exact⟩
  next id row here =>
    have dropped := eraseIdx_perm here
    have member := List.mem_of_getElem? here
    have counts := fun r => (dropped.map Prod.snd).count_eq r
    simp only [List.map_cons,List.count_cons,beq_iff_eq] at counts
    have counted : w.count row = World.count { w with settling := w.settling.eraseIdx i } row + 1 := by
      simp only [World.count,counts,if_true]
      omega
    have held : w.load row = World.load { w with settling := w.settling.eraseIdx i } row + operationStateSize := by
      simp only [World.load,counts,if_true,Nat.mul_add]
      omega
    obtain ⟨budget,returned,key,others,books⟩ := exact.books.settle counted held
      (load_zero (w := { w with settling := w.settling.eraseIdx i }))
    simp only [returned,Option.bind_eq_bind,Option.bind_some,Option.pure_def]
    have keys : ∀ r, World.count { w with settling := w.settling.eraseIdx i } r ≠ 0 →
        (budget.owners r).key = (w.budget.owners r).key := by
      intro r used
      rcases eq_or_ne r row with rfl | other
      · exact key used
      · rw [others r other]
    refine ⟨_,rfl,?_,exact.refs,exact.alive,exact.bytes,exact.limit,?_,?_,exact.fresh,?_,?_⟩
    · have counts' : World.count { w with budget, settling := w.settling.eraseIdx i } =
          Function.update w.count row (World.count { w with settling := w.settling.eraseIdx i } row) := by
        funext r
        rcases eq_or_ne r row with rfl | other
        · simp [World.count]
        · rw [Function.update_of_ne other]
          simp only [World.count,counts,if_neg other.symm,Nat.add_zero]
      have loads : World.load { w with budget, settling := w.settling.eraseIdx i } =
          Function.update w.load row (World.load { w with settling := w.settling.eraseIdx i } row) := by
        funext r
        rcases eq_or_ne r row with rfl | other
        · simp [World.load]
        · rw [Function.update_of_ne other]
          simp only [World.load,counts,if_neg other.symm,Nat.add_zero]
      rw [counts',loads]
      exact books
    · intro other t found
      rw [keys _ (count_pos (w := { w with settling := w.settling.eraseIdx i }) found)]
      exact exact.keyed other t found
    · intro p still
      rw [keys]
      · exact exact.settled p (List.mem_of_mem_eraseIdx still)
      · exact settling_pos (w := { w with settling := w.settling.eraseIdx i }) still
    · exact fun p still => exact.freed p (List.mem_of_mem_eraseIdx still)
    · exact exact.once.sublist ((List.eraseIdx_sublist _ _).map _)

/-- A `Begin` returns a handle, or changes only the rejected counter. -/
theorem Exact.begin (exact : Exact w) (key : OwnerGeneration) (allocated : Bool) :
    w.begin key allocated = some { w with budget := w.budget.reject } ∨
      ∃ w', w.begin key allocated = some w' ∧ w'.operations.length = w.operations.length + 1 ∧ Exact w' := by
  rw [World.begin]
  rcases exact.books.begin key allocated with refused | ⟨budget,row,admitted,⟨others,keyed,joined⟩,books⟩
  · exact .inl (by simp only [refused,Option.bind_eq_bind,Option.bind_some,Option.pure_def])
  · simp only [admitted,Option.bind_eq_bind,Option.bind_some,Option.pure_def]
    refine .inr ⟨_,rfl,by simp,?_⟩
    have new : w.next ∉ w.states := fun member => Nat.lt_irrefl _ (exact.fresh _ member)
    have unheld : w.handles w.next = 0 := by
      by_contra held
      exact new (exact.alive _ (Nat.pos_of_ne_zero held))
    have unleased := leased_zero unheld
    have keys : ∀ r, w.count r ≠ 0 → (budget.owners r).key = (w.budget.owners r).key := by
      intro r used
      rcases eq_or_ne r row with rfl | other
      · rw [keyed,joined (by rwa [exact.books.items])]
      · rw [others r other]
    constructor
    · have counts : World.count { w with
          budget
          states := w.states.insert w.next ⟨1,row,operationStateSize⟩
          next := w.next + 1
          operations := w.operations ++ [some w.next]
          begun := Function.update w.begun w.next key } = Function.update w.count row (w.count row + 1) := by
        funext r
        simp only [World.count,Table.weight_insert_new _ new,inRow]
        rcases eq_or_ne r row with rfl | other
        · simp only [if_true,Function.update_self]
          omega
        · simp [other,other.symm,World.count]
      have loads : World.load { w with
          budget
          states := w.states.insert w.next ⟨1,row,operationStateSize⟩
          next := w.next + 1
          operations := w.operations ++ [some w.next]
          begun := Function.update w.begun w.next key } =
          Function.update w.load row (w.load row + operationStateSize) := by
        funext r
        simp only [World.load,Table.weight_insert_new _ new,bytesIn]
        rcases eq_or_ne r row with rfl | other
        · simp only [if_true,Function.update_self]
          omega
        · simp [other,other.symm,World.load]
      rw [counts,loads]
      exact books
    · intro id s found
      obtain ⟨rfl,rfl⟩ | ⟨different,found⟩ := Table.lookup_insert_cases found
      · simp only [World.handles] at unheld ⊢
        simp
        omega
      · have := exact.refs id s found
        simpa [World.handles,different.symm] using this
    · intro id held
      rw [AList.mem_insert]
      rcases eq_or_ne id w.next with rfl | different
      · exact .inl rfl
      · refine .inr (exact.alive id ?_)
        simpa [World.handles,different.symm] using held
    · intro id s found
      obtain ⟨rfl,rfl⟩ | ⟨different,found⟩ := Table.lookup_insert_cases found
      · simpa [World.leased] using unleased
      · exact exact.bytes id s found
    · intro id s found
      obtain ⟨rfl,rfl⟩ | ⟨different,found⟩ := Table.lookup_insert_cases found
      · exact operationStateSize_le
      · exact exact.limit id s found
    · intro id s found
      obtain ⟨rfl,rfl⟩ | ⟨different,found⟩ := Table.lookup_insert_cases found
      · simpa using keyed
      · simp only [Function.update_of_ne different]
        rw [keys _ (count_pos found)]
        exact exact.keyed id s found
    · intro p member
      have different : p.1 ≠ w.next := Nat.ne_of_lt (exact.freed p member).2
      simp only [Function.update_of_ne different]
      rw [keys _ (settling_pos member)]
      exact exact.settled p member
    · intro id member
      rcases AList.mem_insert _ |>.mp member with rfl | old
      · exact Nat.lt_succ_self _
      · exact Nat.lt_succ_of_lt (exact.fresh id old)
    · intro p member
      have before := (exact.freed p member).2
      refine ⟨fun inside => ?_,Nat.lt_succ_of_lt before⟩
      rcases AList.mem_insert _ |>.mp inside with same | old
      · omega
      · exact (exact.freed p member).1 old
    · exact exact.once

/-- No step underflows or touches a freed state, and every step keeps the books exact. -/
theorem Exact.step (exact : Exact w) (action : Action) : ∃ w', w.step action = some w' ∧ Exact w' := by
  cases action with
  | begin key allocated =>
    rcases exact.begin key allocated with refused | ⟨w',admitted,_,kept⟩
    · exact ⟨_,refused,exact.reject⟩
    · exact ⟨w',admitted,kept⟩
  | emptyOperation => exact ⟨_,rfl,exact.emptyOperation⟩
  | copyOperation i => exact exact.copyOperation i
  | moveOperation i => exact ⟨_,rfl,exact.moveOperation i⟩
  | assignCopy i j => exact exact.assignCopy i j
  | assignMove i j => exact ⟨_,rfl,exact.assignMove i j⟩
  | destroyOperation i => exact ⟨_,rfl,exact.destroyOperation i⟩
  | reserve i bytes =>
    rcases exact.reserve i bytes with missing | refused | ⟨w',admitted,_,kept⟩
    · exact ⟨w,missing,exact⟩
    · exact ⟨_,refused,exact.reject⟩
    · exact ⟨w',admitted,kept⟩
  | emptyLease => exact ⟨_,rfl,exact.emptyLease⟩
  | moveLease i => exact ⟨_,rfl,exact.moveLease i⟩
  | assignLease i j => exact exact.assignLease i j
  | destroyLease i => exact exact.destroyLease i
  | release i => exact exact.release i
  | settle i => exact exact.settle i

theorem Exact.run (actions : List Action) : ∀ {w : World}, Exact w → ∃ w', run actions w = some w' ∧ Exact w' := by
  induction actions with
  | nil => exact fun exact => ⟨_,rfl,exact⟩
  | cons action rest ih =>
    intro w exact
    obtain ⟨w',stepped,kept⟩ := exact.step action
    obtain ⟨w'',ran,kept'⟩ := ih kept
    exact ⟨w'',by rw [EngineFunctionCopy.run,stepped]; exact ran,kept'⟩

/-- What admission promises of the gauges, of the rows in use and of a refused request. -/
structure Admission (w : World) : Prop where
  live : w.live.Nodup
  items : w.budget.metrics.items = w.live.length
  owners : w.budget.metrics.owners = (Finset.univ.filter fun r => (w.budget.owners r).items ≠ 0).card
  bytes : w.budget.metrics.bytes = ∑ r, (w.budget.owners r).bytes
  unused : ∀ r, (w.budget.owners r).items = 0 → (w.budget.owners r).bytes = 0
  rowItems : ∀ r, (w.budget.owners r).items ≠ 0 →
    (w.budget.owners r).items = (w.live.filter fun id => w.begun id = (w.budget.owners r).key).length
  rowBytes : ∀ r, (w.budget.owners r).items ≠ 0 →
    (w.budget.owners r).bytes = rowSize + ((w.live.filter fun id => w.begun id = (w.budget.owners r).key).map
      fun id => operationStateSize + w.leased id).sum
  operationBytes : ∀ id s, w.states.lookup id = some s → s.bytes = operationStateSize + w.leased id
  distinct : ∀ r r', (w.budget.owners r).items ≠ 0 → (w.budget.owners r').items ≠ 0 →
    (w.budget.owners r).key = (w.budget.owners r').key → r = r'
  attached : ∀ id s, w.states.lookup id = some s →
    (w.budget.owners s.row).items ≠ 0 ∧ (w.budget.owners s.row).key = w.begun id
  alive : ∀ id, 0 < w.handles id → id ∈ w.states
  processBytes : w.budget.metrics.bytes ≤ ProcessBytes
  processItems : w.budget.metrics.items ≤ ProcessItems
  ownerBytes : ∀ r, (w.budget.owners r).bytes ≤ OwnerBytes
  ownerItems : ∀ r, (w.budget.owners r).items ≤ OwnerItems
  operationLimit : ∀ id s, w.states.lookup id = some s → s.bytes ≤ OperationBytes
  beginRefused : ∀ key allocated w', w.begin key allocated = some w' → w'.operations = w.operations →
    w' = { w with budget := w.budget.reject }
  reserveRefused : ∀ i bytes w', w.reserve i bytes = some w' → w'.leases = w.leases →
    w' = w ∨ w' = { w with budget := w.budget.reject }

theorem sum_rows (l : List Index) : ∑ r, l.count r = l.length := by
  induction l with
  | nil => simp
  | cons i rest ih =>
    simp only [List.count_cons,Finset.sum_add_distrib,ih,beq_iff_eq,Finset.sum_ite_eq,Finset.mem_univ,if_true,
      List.length_cons]

theorem sum_inRow (states : Table Nat OperationState) : ∑ r, states.weight (inRow r) = states.size := by
  simp only [Table.weight,Table.size,inRow]
  induction states.entries with
  | nil => simp
  | cons entry rest ih =>
    simp only [List.map_cons,List.sum_cons,Finset.sum_add_distrib,ih,Finset.sum_ite_eq,Finset.mem_univ,if_true,
      List.length_cons]
    omega

theorem Exact.items (exact : Exact w) : w.budget.metrics.items = w.live.length := by
  have keys : w.states.keys.length = w.states.size := by simp [AList.keys,List.keys,Table.size]
  rw [exact.books.totalItems]
  simp only [World.count,Finset.sum_add_distrib,sum_inRow,sum_rows,World.live,List.length_append,keys,List.length_map]

theorem Exact.live_nodup (exact : Exact w) : w.live.Nodup := by
  refine List.nodup_append.mpr ⟨AList.keys_nodup _,exact.once,?_⟩
  rintro id member other freed rfl
  obtain ⟨p,inside,rfl⟩ := List.mem_map.mp freed
  exact (exact.freed p inside).1 (AList.mem_keys.mpr member)

theorem sum_filter {α : Type} (p : α → Prop) [DecidablePred p] (f : α → Nat) (l : List α) :
    ((l.filter p).map f).sum = (l.map fun a => if p a then f a else 0).sum := by
  induction l with
  | nil => rfl
  | cons a rest ih => by_cases holds : p a <;> simp [holds,ih]

/-- What the operations begun with the key of a row come to, in whatever they are measured. -/
theorem Exact.sum_of_row (exact : Exact w) {r : Index} (used : w.count r ≠ 0) (f : Nat → Nat) :
    ((w.live.filter fun id => w.begun id = (w.budget.owners r).key).map f).sum =
      w.states.weight (fun id s => if s.row = r then f id else 0) +
        (w.settling.map fun p => if p.2 = r then f p.1 else 0).sum := by
  have inside : ∀ r', w.count r' ≠ 0 → ((w.budget.owners r').key = (w.budget.owners r).key ↔ r' = r) :=
    fun r' also => ⟨exact.books.distinct r' r also used,fun same => by rw [same]⟩
  rw [sum_filter]
  simp only [World.live,List.map_append,List.sum_append,Table.weight,AList.keys,List.keys,List.map_map]
  congr 2
  · refine List.map_congr_left fun entry member => ?_
    have found := (Table.lookup_iff_entry w.states entry.1 entry.2).mpr member
    have same := inside _ (count_pos found)
    rw [exact.keyed _ _ found] at same
    simp only [Function.comp_apply,same]
  · refine List.map_congr_left fun p member => ?_
    have same := inside _ (settling_pos member)
    rw [exact.settled p member] at same
    simp only [Function.comp_apply,same]

theorem Exact.rowItems (exact : Exact w) {r : Index} (used : w.count r ≠ 0) :
    w.count r = (w.live.filter fun id => w.begun id = (w.budget.owners r).key).length := by
  have sum := exact.sum_of_row used fun _ => 1
  simp only [List.map_const',List.sum_replicate,smul_eq_mul,Nat.mul_one] at sum
  rw [sum,World.count]
  congr 1
  generalize w.settling = settling
  induction settling with
  | nil => rfl
  | cons p rest ih =>
    simp only [List.map_cons,List.count_cons,List.sum_cons,ih,beq_iff_eq]
    omega

theorem Exact.rowBytes (exact : Exact w) {r : Index} (used : w.count r ≠ 0) :
    w.load r = ((w.live.filter fun id => w.begun id = (w.budget.owners r).key).map
      fun id => operationStateSize + w.leased id).sum := by
  rw [exact.sum_of_row used,World.load]
  congr 1
  · simp only [Table.weight]
    congr 1
    refine List.map_congr_left fun entry member => ?_
    have found := (Table.lookup_iff_entry w.states entry.1 entry.2).mpr member
    rw [bytesIn,exact.bytes _ _ found]
  · have freed : ∀ p ∈ w.settling, w.leased p.1 = 0 := by
      intro p member
      refine leased_zero ?_
      by_contra held
      exact (exact.freed p member).1 (exact.alive _ (Nat.pos_of_ne_zero held))
    generalize w.settling = settling at freed
    induction settling with
    | nil => rfl
    | cons p rest ih =>
      have left := ih fun q member => freed q (List.mem_cons_of_mem p member)
      simp only [List.map_cons,List.count_cons,List.sum_cons,freed p List.mem_cons_self,beq_iff_eq,Nat.mul_add,left]
      split <;> omega

theorem Exact.admission (exact : Exact w) : Admission w where
  live := exact.live_nodup
  items := exact.items
  owners := by
    simp only [exact.books.totalOwners,Finset.card_filter,exact.books.items,ite_not]
  bytes := by
    rw [exact.books.totalBytes]
    exact Finset.sum_congr rfl fun r _ => (exact.books.bytes r).symm
  unused r zero := by
    rw [exact.books.items] at zero
    rw [exact.books.bytes,rowCharge,if_pos zero,load_zero zero]
  rowItems r used := by
    rw [exact.books.items] at used ⊢
    exact exact.rowItems used
  rowBytes r used := by
    rw [exact.books.items] at used
    rw [exact.books.bytes,rowCharge,if_neg used,exact.rowBytes used]
  operationBytes := exact.bytes
  distinct r r' used used' := by
    rw [exact.books.items] at used used'
    exact exact.books.distinct r r' used used'
  attached id s found := by
    rw [exact.books.items]
    exact ⟨count_pos found,exact.keyed id s found⟩
  alive := exact.alive
  processBytes := exact.books.processBytes
  processItems := exact.books.processItems
  ownerBytes := exact.books.ownerBytes
  ownerItems := exact.books.ownerItems
  operationLimit := exact.limit
  beginRefused key allocated w' begun same := by
    rcases exact.begin key allocated with refused | ⟨w'',admitted,more,_⟩
    · exact (Option.some.inj (refused.symm.trans begun)).symm
    · obtain rfl := Option.some.inj (admitted.symm.trans begun)
      rw [same] at more
      omega
  reserveRefused i bytes w' reserved same := by
    rcases exact.reserve i bytes with missing | refused | ⟨w'',admitted,more,_⟩
    · exact .inl (Option.some.inj (missing.symm.trans reserved)).symm
    · exact .inr (Option.some.inj (refused.symm.trans reserved)).symm
    · obtain rfl := Option.some.inj (admitted.symm.trans reserved)
      rw [same] at more
      omega

/-- Native copy admission is exact after every run of any threads. -/
theorem admission_exact (actions : List Action) : ∃ w, run actions .new = some w ∧ Admission w := by
  obtain ⟨w,ran,exact⟩ := Exact.new.run actions
  exact ⟨w,ran,exact.admission⟩

end S2Script.EngineFunctionCopy
