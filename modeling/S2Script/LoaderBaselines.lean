import S2Script.LoaderWorkerQueue

/-! The config baselines the worker owns: every operation keeps the byte count
exact and both limits, and touches the entries of its own path only. -/
namespace S2Script.LoaderWorker

namespace ConfigBaselines

/-- The paths that have a committed or a proposed content. -/
def paths (baselines : ConfigBaselines) : Finset Path :=
  (baselines.values.keys ++ baselines.proposals.keys).toFinset

theorem mem_paths (baselines : ConfigBaselines) (path : Path) :
    path ∈ baselines.paths ↔ path ∈ baselines.values ∨ path ∈ baselines.proposals := by
  simp [paths,AList.mem_keys]

theorem pathCount_eq (baselines : ConfigBaselines) : baselines.pathCount = baselines.paths.card := by
  have distinct : (baselines.values.keys ++ baselines.proposals.keys.filter (· ∉ baselines.values)).Nodup := by
    refine List.Nodup.append baselines.values.keys_nodup (baselines.proposals.keys_nodup.filter _) ?_
    intro path committed proposed
    have fresh := (List.mem_filter.mp proposed).2
    simp [AList.mem_keys.mpr committed] at fresh
  have same : baselines.paths =
      (baselines.values.keys ++ baselines.proposals.keys.filter (· ∉ baselines.values)).toFinset := by
    ext path
    simp only [paths,List.mem_toFinset,List.mem_append,AList.mem_keys,List.mem_filter,decide_eq_true_eq]
    tauto
  rw [same,List.toFinset_card_of_nodup distinct,List.length_append]
  simp [pathCount,Table.size,AList.keys,List.keys]

def valueBytes (baselines : ConfigBaselines) : Nat :=
  baselines.values.weight fun path baseline => entryBytes path baseline.content

def proposalBytes (baselines : ConfigBaselines) : Nat :=
  baselines.proposals.weight fun path proposal => entryBytes path proposal.content

end ConfigBaselines

/-- The byte count is the sum over the entries, and both limits hold. -/
structure Exact (policy : LoaderPolicy) (baselines : ConfigBaselines) : Prop where
  sum : baselines.bytes = baselines.valueBytes + baselines.proposalBytes
  bytes : baselines.bytes ≤ policy.configBaselineBytes
  paths : baselines.paths.card ≤ policy.configBaselineItems

theorem exact_empty (policy : LoaderPolicy) : Exact policy {} where
  sum := rfl
  bytes := Nat.zero_le _
  paths := Nat.zero_le _

/-! ### The sum and the limits -/

section Operations

variable {policy : LoaderPolicy} {baselines : ConfigBaselines}

@[simp] theorem dropProposal_values (baselines : ConfigBaselines) (path : Path) :
    (baselines.dropProposal path).values = baselines.values := by
  unfold ConfigBaselines.dropProposal
  split <;> rfl

@[simp] theorem dropProposal_proposals (baselines : ConfigBaselines) (path : Path) :
    (baselines.dropProposal path).proposals = baselines.proposals.erase path := by
  unfold ConfigBaselines.dropProposal
  split
  next absent => exact (Table.erase_of_absent (AList.lookup_eq_none.mp absent)).symm
  · rfl

@[simp] theorem dropValue_values (baselines : ConfigBaselines) (path : Path) :
    (baselines.dropValue path).values = baselines.values.erase path := by
  unfold ConfigBaselines.dropValue
  split
  next absent => exact (Table.erase_of_absent (AList.lookup_eq_none.mp absent)).symm
  · rfl

@[simp] theorem dropValue_proposals (baselines : ConfigBaselines) (path : Path) :
    (baselines.dropValue path).proposals = baselines.proposals := by
  unfold ConfigBaselines.dropValue
  split <;> rfl

theorem dropProposal_bytes (baselines : ConfigBaselines) (path : Path) :
    (baselines.dropProposal path).bytes = baselines.bytes -
      ((baselines.proposals.lookup path).map fun proposal => entryBytes path proposal.content).getD 0 := by
  unfold ConfigBaselines.dropProposal
  split
  next absent => simp [absent]
  next proposal found => simp [found]

theorem dropValue_bytes (baselines : ConfigBaselines) (path : Path) :
    (baselines.dropValue path).bytes = baselines.bytes -
      ((baselines.values.lookup path).map fun old => entryBytes path old.content).getD 0 := by
  unfold ConfigBaselines.dropValue
  split
  next absent => simp [absent]
  next proposal found => simp [found]

/-- What is released for a path is what its proposal is charged. -/
theorem proposalBytes_erase (baselines : ConfigBaselines) (path : Path) :
    baselines.proposalBytes = (baselines.dropProposal path).proposalBytes +
      ((baselines.proposals.lookup path).map fun proposal => entryBytes path proposal.content).getD 0 := by
  rw [ConfigBaselines.proposalBytes,ConfigBaselines.proposalBytes,dropProposal_proposals]
  exact Table.weight_split _ _ _

theorem valueBytes_erase (baselines : ConfigBaselines) (path : Path) :
    baselines.valueBytes = (baselines.dropValue path).valueBytes +
      ((baselines.values.lookup path).map fun old => entryBytes path old.content).getD 0 := by
  rw [ConfigBaselines.valueBytes,ConfigBaselines.valueBytes,dropValue_values]
  exact Table.weight_split _ _ _

theorem valueBytes_dropProposal (baselines : ConfigBaselines) (path : Path) :
    (baselines.dropProposal path).valueBytes = baselines.valueBytes := by
  simp [ConfigBaselines.valueBytes]

theorem proposalBytes_dropValue (baselines : ConfigBaselines) (path : Path) :
    (baselines.dropValue path).proposalBytes = baselines.proposalBytes := by
  simp [ConfigBaselines.proposalBytes]

theorem Exact.dropProposal (exact : Exact policy baselines) (path : Path) :
    Exact policy (baselines.dropProposal path) := by
  have sum := exact.sum
  have bytes := exact.bytes
  have released := proposalBytes_erase baselines path
  constructor
  · rw [dropProposal_bytes,valueBytes_dropProposal]
    omega
  · rw [dropProposal_bytes]
    omega
  · refine (Finset.card_le_card ?_).trans exact.paths
    intro other
    simp only [ConfigBaselines.mem_paths,dropProposal_values,dropProposal_proposals,AList.mem_erase]
    tauto

theorem Exact.dropValue (exact : Exact policy baselines) (path : Path) : Exact policy (baselines.dropValue path) := by
  have sum := exact.sum
  have bytes := exact.bytes
  have released := valueBytes_erase baselines path
  constructor
  · rw [dropValue_bytes,proposalBytes_dropValue]
    omega
  · rw [dropValue_bytes]
    omega
  · refine (Finset.card_le_card ?_).trans exact.paths
    intro other
    simp only [ConfigBaselines.mem_paths,dropValue_values,dropValue_proposals,AList.mem_erase]
    tauto

theorem Exact.discardSuperseded (exact : Exact policy baselines) (path : Path) (generation revision : Nat) :
    Exact policy (baselines.discardSuperseded path generation revision) := by
  unfold ConfigBaselines.discardSuperseded
  split
  · split
    · exact exact.dropProposal path
    · exact exact
  · exact exact

/-- A proposal is held only within both limits. -/
theorem Exact.propose (sized : policy.Sized) (exact : Exact policy baselines) {path : Path}
    (free : path ∉ baselines.proposals) (generation revision : Nat) (content : Option String)
    (decision : WatchDelta) :
    Exact policy (baselines.propose policy path generation revision content decision).2 := by
  unfold ConfigBaselines.propose
  extract_lets newPath newBytes pathsRejected bytesRejected
  split
  · exact ⟨exact.sum,exact.bytes,exact.paths⟩
  next room =>
    obtain ⟨pathRoom,byteRoom⟩ := not_or.mp room
    have fits := saturatingAdd_of_le sized.baseline byteRoom
    have below := sized.baseline
    have added : saturatingAdd baselines.bytes newBytes = baselines.bytes + newBytes := by
      unfold saturatingAdd
      omega
    have sum := exact.sum
    refine ⟨?_,by simpa only [added] using fits,?_⟩
    · simp only [added,ConfigBaselines.valueBytes,ConfigBaselines.proposalBytes] at sum ⊢
      rw [Table.weight_insert_new _ free]
      simp only [newBytes]
      omega
    · have grown : ({ baselines with
          bytes := saturatingAdd baselines.bytes newBytes
          proposals := baselines.proposals.insert path ⟨generation,revision,content⟩ } : ConfigBaselines).paths =
          insert path baselines.paths := by
        ext other
        simp only [Finset.mem_insert,ConfigBaselines.mem_paths,AList.mem_insert]
        tauto
      rw [grown]
      by_cases known : path ∈ baselines.paths
      · rw [Finset.insert_eq_of_mem known]
        exact exact.paths
      · rw [Finset.card_insert_of_notMem known,← ConfigBaselines.pathCount_eq]
        rw [ConfigBaselines.mem_paths,not_or] at known
        have := not_and.mp pathRoom known
        omega

theorem Exact.compareAndPropose (sized : policy.Sized) (exact : Exact policy baselines) (path : Path)
    (generation revision : Nat) (content : Option String) :
    Exact policy (baselines.compareAndPropose policy path generation revision content).2 := by
  have free : path ∉ (baselines.dropProposal path).proposals := by simp [AList.mem_erase]
  unfold ConfigBaselines.compareAndPropose
  split
  · exact (exact.dropProposal path).propose sized free _ _ _ _
  · split
    · exact (exact.dropProposal path).propose sized free _ _ _ _
    split
    · exact exact.dropProposal path
    · exact (exact.dropProposal path).propose sized free _ _ _ _

/-- Committing a proposal moves its charge; what it replaces is released. -/
theorem Exact.commit (sized : policy.Sized) (exact : Exact policy baselines) {path : Path}
    {proposal : ConfigProposal} (held : baselines.proposals.lookup path = some proposal) :
    Exact policy ((baselines.dropProposal path).commit path proposal) := by
  have sum := exact.sum
  have bytes := exact.bytes
  have below := sized.baseline
  have moved := proposalBytes_erase baselines path
  have released := valueBytes_erase baselines path
  have now : ((baselines.dropProposal path).commit path proposal).valueBytes =
      (baselines.dropValue path).valueBytes + entryBytes path proposal.content := by
    simp only [ConfigBaselines.commit,ConfigBaselines.valueBytes,Table.insert_erase,dropProposal_values,
      dropValue_values]
    exact Table.weight_insert_erase _ _ _ _
  have kept : ((baselines.dropProposal path).commit path proposal).proposalBytes =
      (baselines.dropProposal path).proposalBytes := rfl
  have charged : ((baselines.dropProposal path).commit path proposal).bytes =
      saturatingAdd ((baselines.dropProposal path).bytes -
        ((baselines.values.lookup path).map fun old => entryBytes path old.content).getD 0)
        (entryBytes path proposal.content) := by
    simp [ConfigBaselines.commit]
  rw [dropProposal_bytes,saturatingAdd] at charged
  simp only [held,Option.map_some,Option.getD_some] at moved charged
  refine ⟨by omega,by omega,?_⟩
  refine (Finset.card_le_card ?_).trans exact.paths
  intro other
  have member : path ∈ baselines.proposals := Table.mem_of_lookup held
  simp only [ConfigBaselines.commit,ConfigBaselines.mem_paths,dropProposal_values,dropProposal_proposals,
    AList.mem_insert,AList.mem_erase]
  rintro ((rfl | committed) | proposed)
  · exact .inr member
  · exact .inl committed.2
  · exact .inr proposed.2

theorem Exact.resolve (sized : policy.Sized) (exact : Exact policy baselines) (path : Path)
    (generation revision : Nat) (applied : Bool) :
    Exact policy (baselines.resolve path generation revision applied) := by
  unfold ConfigBaselines.resolve
  split
  · exact exact
  next proposal held =>
    split
    · exact exact
    split
    · exact exact.commit sized held
    · exact exact.dropProposal path

theorem Exact.retire (exact : Exact policy baselines) (path : Path) (generation : Nat) :
    Exact policy (baselines.retire path generation) := by
  unfold ConfigBaselines.retire
  extract_lets kept
  have keptExact : Exact policy kept := by
    simp only [kept]
    split
    · exact exact.dropValue path
    · exact exact
  split
  · exact keptExact.dropProposal path
  · exact keptExact

theorem Exact.control (sized : policy.Sized) (exact : Exact policy baselines) (path : Path)
    (control : ConfigControl) : Exact policy (baselines.control path control) := by
  unfold ConfigBaselines.control
  extract_lets resolved
  have resolvedExact : Exact policy resolved := by
    simp only [resolved]
    split
    · exact exact.resolve sized path _ _ _
    · exact exact
  split
  · exact resolvedExact.retire path _
  · exact resolvedExact

theorem Exact.controls (sized : policy.Sized) (exact : Exact policy baselines)
    (controls : List (Path × ConfigControl)) :
    Exact policy (controls.foldl (fun baselines entry => baselines.control entry.1 entry.2) baselines) := by
  induction controls generalizing baselines with
  | nil => exact exact
  | cons entry controls ih => exact ih (exact.control sized entry.1 entry.2)

theorem Exact.runRequest (sized : policy.Sized) (exact : Exact policy baselines) (disk : Disk)
    (request : Request) : Exact policy (LoaderWorker.runRequest policy disk baselines request).2 := by
  have read : ∀ {before : ConfigBaselines} path revision watchGeneration content stamp, Exact policy before →
      Exact policy (snapshot policy before path revision watchGeneration content stamp).2 := by
    intro before path revision watchGeneration content stamp exact
    unfold snapshot
    split
    · exact exact
    · exact exact.compareAndPropose sized _ _ _ _
  cases request with
  | scan epoch revision dir => exact exact
  | plugin epoch revision path => exact exact
  | config epoch revision path watchGeneration =>
    have opened : ∀ {before : ConfigBaselines}, Exact policy before →
        Exact policy (readConfig policy disk before path revision watchGeneration).2 := by
      intro before kept
      rw [readConfig]
      split
      · exact read _ _ _ _ _ kept
      split
      · exact read _ _ _ _ _ kept
      · exact kept
    cases watchGeneration with
    | some generation => exact opened (exact.discardSuperseded path generation revision)
    | none => exact opened exact

end Operations

/-! ### What the baselines hold for one path -/

/-- The committed and the proposed content of one path. -/
structure ConfigCell where
  value : Option ConfigBaseline
  proposal : Option ConfigProposal

def ConfigBaselines.cell (baselines : ConfigBaselines) (path : Path) : ConfigCell where
  value := baselines.values.lookup path
  proposal := baselines.proposals.lookup path

namespace ConfigCell

/-- The cell holds a content of this generation. -/
def Holds (cell : ConfigCell) (generation : Nat) : Prop :=
  (∃ old, cell.value = some old ∧ old.generation = generation) ∨
    ∃ proposal, cell.proposal = some proposal ∧ proposal.generation = generation

def resolve (cell : ConfigCell) (generation revision : Nat) (applied : Bool) : ConfigCell :=
  match cell.proposal with
  | none => cell
  | some proposal =>
    if proposal.generation ≠ generation ∨ proposal.revision ≠ revision then cell
    else ⟨if applied then some ⟨proposal.generation,proposal.content⟩ else cell.value,none⟩

def retire (cell : ConfigCell) (generation : Nat) : ConfigCell where
  value := cell.value.filter (generation < ·.generation)
  proposal := cell.proposal.filter (generation < ·.generation)

def control (cell : ConfigCell) (control : ConfigControl) : ConfigCell :=
  let resolved := match control.resolution with
    | some (generation,revision,applied) => cell.resolve generation revision applied
    | none => cell
  match control.retireGeneration with
  | some generation => resolved.retire generation
  | none => resolved

@[simp] theorem control_empty (cell : ConfigCell) : cell.control {} = cell := rfl

/-- What one read for a generation leaves in its path's cell. -/
inductive Read (before : ConfigCell) (generation revision : Nat) :
    Except String ConfigSnapshot → ConfigCell → Prop
  | failed (reason : String) (kept : Option ConfigProposal) (held : kept = none ∨ kept = before.proposal) :
    Read before generation revision (.error reason) ⟨before.value,kept⟩
  | pressure (content : Option String) (stamp : Option FileStamp) :
    Read before generation revision (.ok ⟨content,stamp,.pressure⟩) ⟨before.value,none⟩
  | unchanged (content : Option String) (stamp : Option FileStamp)
    (same : before.value = some ⟨generation,content⟩) :
    Read before generation revision (.ok ⟨content,stamp,.unchanged⟩) ⟨before.value,none⟩
  | seed (content : Option String) (stamp : Option FileStamp)
    (unseen : ∀ old, before.value = some old → old.generation ≠ generation) :
    Read before generation revision (.ok ⟨content,stamp,.seed⟩)
      ⟨before.value,some ⟨generation,revision,content⟩⟩
  | changed (content : Option String) (stamp : Option FileStamp) (old : Option String)
    (committed : before.value = some ⟨generation,old⟩) (differs : old ≠ content) :
    Read before generation revision (.ok ⟨content,stamp,.changed⟩)
      ⟨before.value,some ⟨generation,revision,content⟩⟩

end ConfigCell

section Cells

variable (baselines : ConfigBaselines) {path other : Path}

@[simp] theorem cell_value : (baselines.cell path).value = baselines.values.lookup path := rfl

@[simp] theorem cell_proposal : (baselines.cell path).proposal = baselines.proposals.lookup path := rfl

theorem cell_eq {before after : ConfigBaselines} (values : after.values.lookup path = before.values.lookup path)
    (proposals : after.proposals.lookup path = before.proposals.lookup path) :
    after.cell path = before.cell path := by
  simp [ConfigBaselines.cell,values,proposals]

theorem cell_dropProposal_other (apart : other ≠ path) :
    (baselines.dropProposal path).cell other = baselines.cell other := by
  apply cell_eq <;> simp [Table.lookup_erase_eq,apart]

theorem cell_dropProposal : (baselines.dropProposal path).cell path = ⟨(baselines.cell path).value,none⟩ := by
  simp [ConfigBaselines.cell]

theorem cell_resolve (generation revision : Nat) (applied : Bool) :
    (baselines.resolve path generation revision applied).cell path =
      (baselines.cell path).resolve generation revision applied := by
  unfold ConfigBaselines.resolve ConfigCell.resolve
  rw [cell_proposal]
  cases held : baselines.proposals.lookup path with
  | none => rfl
  | some proposal =>
    simp only
    split
    · rfl
    · cases applied <;> simp [ConfigBaselines.cell,ConfigBaselines.commit]

theorem cell_resolve_other (apart : other ≠ path) (generation revision : Nat) (applied : Bool) :
    (baselines.resolve path generation revision applied).cell other = baselines.cell other := by
  unfold ConfigBaselines.resolve
  split
  · rfl
  split
  · rfl
  split
  · apply cell_eq <;> simp [ConfigBaselines.commit,Table.lookup_insert_eq,Table.lookup_erase_eq,apart]
  · exact cell_dropProposal_other baselines apart

theorem cell_retire (generation : Nat) :
    (baselines.retire path generation).cell path = (baselines.cell path).retire generation := by
  unfold ConfigBaselines.retire ConfigCell.retire
  cases value : baselines.values.lookup path <;> cases proposal : baselines.proposals.lookup path <;>
    simp only [ConfigBaselines.cell,value,proposal,Option.any_some,Option.any_none,decide_eq_true_eq] <;>
    split <;> simp_all [Option.filter] <;> split <;> simp_all

theorem cell_retire_other (apart : other ≠ path) (generation : Nat) :
    (baselines.retire path generation).cell other = baselines.cell other := by
  unfold ConfigBaselines.retire
  extract_lets kept
  have same : kept.cell other = baselines.cell other := by
    simp only [kept]
    split
    · apply cell_eq <;> simp [Table.lookup_erase_eq,apart]
    · rfl
  split
  · exact (cell_dropProposal_other kept apart).trans same
  · exact same

theorem cell_control (control : ConfigControl) :
    (baselines.control path control).cell path = (baselines.cell path).control control := by
  unfold ConfigBaselines.control ConfigCell.control
  cases control.resolution <;> cases control.retireGeneration <;> simp [cell_resolve,cell_retire]

theorem cell_control_other (apart : other ≠ path) (control : ConfigControl) :
    (baselines.control path control).cell other = baselines.cell other := by
  unfold ConfigBaselines.control
  cases control.resolution <;> cases control.retireGeneration <;>
    simp [cell_resolve_other,cell_retire_other,apart]

/-- The control a list holds for a path; none is the empty one. -/
def controlFor (controls : List (Path × ConfigControl)) (path : Path) : ConfigControl :=
  (controls.lookup path).getD {}

/-- Every path gets the control the list holds for it. -/
theorem cell_controls {controls : List (Path × ConfigControl)} (distinct : (controls.map Prod.fst).Nodup)
    (baselines : ConfigBaselines) (path : Path) :
    (controls.foldl (fun baselines entry => baselines.control entry.1 entry.2) baselines).cell path =
      (baselines.cell path).control (controlFor controls path) := by
  induction controls generalizing baselines with
  | nil => rfl
  | cons entry controls ih =>
    obtain ⟨here,control⟩ := entry
    obtain ⟨fresh,distinct⟩ := List.nodup_cons.mp distinct
    rw [List.foldl_cons,ih distinct]
    by_cases same : path = here
    · subst same
      have absent : controls.lookup path = none := by
        rw [List.lookup_eq_none_iff]
        intro other member
        rw [bne_iff_ne]
        rintro rfl
        exact fresh (List.mem_map.mpr ⟨other,member,rfl⟩)
      simp [controlFor,absent,cell_control]
    · have apart : (path == here) = false := by simpa using same
      simp [controlFor,List.lookup_cons,apart,cell_control_other baselines same]

end Cells

section Reading

variable {policy : LoaderPolicy} {baselines : ConfigBaselines} {path other : Path} {generation revision : Nat}

theorem cell_discardSuperseded_other (apart : other ≠ path) :
    (baselines.discardSuperseded path generation revision).cell other = baselines.cell other := by
  unfold ConfigBaselines.discardSuperseded
  split
  · split
    · exact cell_dropProposal_other baselines apart
    · rfl
  · rfl

theorem discardSuperseded_kept (baselines : ConfigBaselines) (path : Path) (generation revision : Nat) :
    ∃ kept, (kept = none ∨ kept = (baselines.cell path).proposal) ∧
      (baselines.discardSuperseded path generation revision).cell path = ⟨(baselines.cell path).value,kept⟩ := by
  unfold ConfigBaselines.discardSuperseded
  split
  · split
    · exact ⟨none,.inl rfl,cell_dropProposal baselines⟩
    · exact ⟨_,.inr rfl,rfl⟩
  · exact ⟨_,.inr rfl,rfl⟩

theorem cell_propose_other (apart : other ≠ path) (content : Option String) (decision : WatchDelta) :
    (baselines.propose policy path generation revision content decision).2.cell other = baselines.cell other := by
  unfold ConfigBaselines.propose
  extract_lets newPath newBytes pathsRejected bytesRejected
  split
  · rfl
  · apply cell_eq <;> simp [apart]

/-- A dropped proposal is proposed anew, or refused for want of room. -/
theorem propose_cases (policy : LoaderPolicy) (baselines : ConfigBaselines) (path : Path)
    (generation revision : Nat) (content : Option String) (decision : WatchDelta) :
    let proposed := (baselines.dropProposal path).propose policy path generation revision content decision
    (proposed.1 = .pressure ∧ proposed.2.cell path = ⟨(baselines.cell path).value,none⟩) ∨
    (proposed.1 = decision ∧
      proposed.2.cell path = ⟨(baselines.cell path).value,some ⟨generation,revision,content⟩⟩) := by
  intro proposed
  simp only [proposed,ConfigBaselines.propose]
  split
  · exact .inl ⟨rfl,cell_dropProposal baselines⟩
  · exact .inr ⟨rfl,by simp [ConfigBaselines.cell]⟩

theorem cell_compareAndPropose_other (apart : other ≠ path) (content : Option String) :
    (baselines.compareAndPropose policy path generation revision content).2.cell other =
      baselines.cell other := by
  have dropped := cell_dropProposal_other baselines apart
  unfold ConfigBaselines.compareAndPropose
  split
  · exact (cell_propose_other apart _ _).trans dropped
  · split
    · exact (cell_propose_other apart _ _).trans dropped
    split
    · exact dropped
    · exact (cell_propose_other apart _ _).trans dropped

theorem read_compareAndPropose (policy : LoaderPolicy) (baselines : ConfigBaselines) (path : Path)
    (generation revision : Nat) (content : Option String) (stamp : Option FileStamp) :
    let compared := baselines.compareAndPropose policy path generation revision content
    (baselines.cell path).Read generation revision (.ok ⟨content,stamp,compared.1⟩) (compared.2.cell path) := by
  have seeded : (∀ old, (baselines.cell path).value = some old → old.generation ≠ generation) →
      let proposed := (baselines.dropProposal path).propose policy path generation revision content .seed
      (baselines.cell path).Read generation revision (.ok ⟨content,stamp,proposed.1⟩)
        (proposed.2.cell path) := by
    intro unseen proposed
    obtain ⟨delta,after⟩ | ⟨delta,after⟩ :=
      propose_cases policy baselines path generation revision content .seed <;>
      simp only [proposed,delta,after]
    · exact .pressure content stamp
    · exact .seed content stamp unseen
  intro compared
  simp only [compared,ConfigBaselines.compareAndPropose]
  split
  next unseen => exact seeded (by simp [unseen])
  next old committed =>
    split
    next stale =>
      apply seeded
      intro found here
      rw [cell_value,committed] at here
      cases here
      exact stale
    next current =>
      have committed : (baselines.cell path).value = some ⟨generation,old.content⟩ := by
        rw [← not_not.mp current]
        exact committed
      split
      next same =>
        rw [cell_dropProposal]
        exact .unchanged content stamp (same ▸ committed)
      next differs =>
        obtain ⟨delta,after⟩ | ⟨delta,after⟩ :=
          propose_cases policy baselines path generation revision content .changed <;>
          simp only [delta,after]
        · exact .pressure content stamp
        · exact .changed content stamp old.content committed differs

/-- A read compares with the committed content of its own path, and replaces no
other path's contents. -/
theorem read_runRequest (policy : LoaderPolicy) (disk : Disk) (baselines : ConfigBaselines)
    (epoch revision : Nat) (path : Path) (generation : Nat) :
    ∃ read, (runRequest policy disk baselines (.config epoch revision path (some generation))).1 =
        .config epoch revision path (some generation) read ∧
      (baselines.cell path).Read generation revision read
        ((runRequest policy disk baselines (.config epoch revision path (some generation))).2.cell path) := by
  obtain ⟨kept,held,discarded⟩ := discardSuperseded_kept baselines path generation revision
  have value : ((baselines.discardSuperseded path generation revision).cell path).value =
      (baselines.cell path).value := by rw [discarded]
  have compared : ∀ content stamp,
      let read := (baselines.discardSuperseded path generation revision).compareAndPropose policy path
        generation revision content
      (baselines.cell path).Read generation revision (.ok ⟨content,stamp,read.1⟩) (read.2.cell path) := by
    intro content stamp
    have read := read_compareAndPropose policy (baselines.discardSuperseded path generation revision) path
      generation revision content stamp
    simp only at read ⊢
    revert read
    generalize ConfigBaselines.compareAndPropose policy _ path generation revision content = answer
    obtain ⟨delta,after⟩ := answer
    intro read
    generalize after.cell path = left at read
    cases read with
    | pressure => exact value ▸ .pressure content stamp
    | unchanged _ _ same => exact value ▸ .unchanged content stamp (value ▸ same)
    | seed _ _ unseen => exact value ▸ .seed content stamp (value ▸ unseen)
    | changed _ _ old committed differs => exact value ▸ .changed content stamp old (value ▸ committed) differs
  refine ⟨_,rfl,?_⟩
  simp only [runRequest,readConfig]
  split
  · exact compared _ _
  split
  · exact compared _ _
  · rw [discarded]
    exact .failed _ kept held

theorem cell_runRequest_other (disk : Disk) {request : Request} (apart : request.key ≠ .config path) :
    (runRequest policy disk baselines request).2.cell path = baselines.cell path := by
  cases request with
  | scan epoch revision dir => rfl
  | plugin epoch revision path => rfl
  | config epoch revision here watchGeneration =>
    have elsewhere : path ≠ here := fun same => apart (by rw [same]; rfl)
    cases watchGeneration with
    | none =>
      simp only [runRequest,readConfig,snapshot]
      split
      · rfl
      · split <;> rfl
    | some generation =>
      have discarded : (baselines.discardSuperseded here generation revision).cell path = baselines.cell path :=
        cell_discardSuperseded_other elsewhere
      simp only [runRequest,readConfig,snapshot]
      split
      · exact (cell_compareAndPropose_other elsewhere _).trans discarded
      split
      · exact (cell_compareAndPropose_other elsewhere _).trans discarded
      · exact discarded

/-- A read no generation asked for holds nothing. -/
theorem cell_runRequest_unwatched (policy : LoaderPolicy) (disk : Disk) (baselines : ConfigBaselines)
    (epoch revision : Nat) (here path : Path) :
    (runRequest policy disk baselines (.config epoch revision here none)).2.cell path =
      baselines.cell path := by
  simp only [runRequest,readConfig,snapshot]
  split
  · rfl
  · split <;> rfl

end Reading

end S2Script.LoaderWorker
