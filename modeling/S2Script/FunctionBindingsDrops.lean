import S2Script.FunctionBindingsActivation

/-! Releases: of receipts, of rows, of references, and of a whole owner; and what every
operation does to the rows and the ids in receipts. -/
namespace S2Script.FunctionBindings

open Plugin (Resource Acquisitions)

variable {world : World}

section Drop

theorem Sound.dropReceipt (sound : Sound world) (handle : Nat) :
    Sound (world.dropReceipt handle) ∧ Undone world (world.dropReceipt handle) ∧
      Taken world (world.dropReceipt handle) handle fun _ => True := by
  rw [World.dropReceipt]
  cases found : world.receipts.lookup handle with
  | none => exact ⟨sound,Undone.refl world,fun _ known => nomatch found.symm.trans known⟩
  | some receipt =>
    have dropped := sound.dropTaken found world.plugins (fun _ refines => refines) [] (fun _ member => nomatch member)
    rw [List.append_nil] at dropped
    exact ⟨dropped.1,dropped.2.1,dropped.2.2 _⟩

/-- The calls of a row's end: its capability's release, and its destructor if nothing refers to it. -/
def endCalls (held : List Binding) (binding : Binding) : List NativeCall :=
  (binding.capability.map (NativeCall.instanceRelease binding.id)).toList ++
    if held.any fun other => other.id == binding.id then [] else releaseCalls binding.id binding.target binding.capability

theorem dropBinding_eq {id : Nat} {row : Binding} (found : world.rows.lookup id = some row) (named : row.id = id) :
    world.dropBinding id = { world with rows := world.rows.erase id, calls := world.calls ++ endCalls world.held row } := by
  subst named
  have gone : (world.rows.erase row.id).lookup row.id = none := AList.lookup_erase _ _
  rw [World.dropBinding,found,endCalls]
  cases capability : row.capability with
  | none =>
    cases referenced : world.held.any fun other => other.id == row.id <;>
      simp [World.dropReference,gone,referenced,release_eq,capability]
  | some capability =>
    cases referenced : world.held.any fun other => other.id == row.id <;>
      simp [World.dropReference,gone,referenced,release_eq,capability,World.call]

theorem endCalls_own (held : List Binding) (row : Binding) : ∀ call ∈ endCalls held row, call.binding? = some row.id := by
  intro call member
  rcases List.mem_append.mp member with inFirst | inRest
  · obtain ⟨capability,_,rfl⟩ := Option.map_eq_some_iff.mp (Option.mem_toList.mp inFirst)
    rfl
  · split at inRest
    · exact nomatch inRest
    · exact releaseCalls_own _ _ _ call inRest

/-- A dropped row keeps its target as long as a call refers to it, and its capability no longer. -/
theorem Sound.dropBinding (sound : Sound world) (id : Nat) : Sound (world.dropBinding id) := by
  cases found : world.rows.lookup id with
  | none =>
    rw [World.dropBinding,found]
    exact sound
  | some row =>
    have named := sound.tracked.rowId id row found
    have whole := sound.tracked.rowLife id row found
    have revoked : Revoked id (world.calls ++ (row.capability.map (NativeCall.instanceRelease row.id)).toList) row.target row.capability := by
      cases capability : row.capability with
      | none =>
        rw [capability] at whole
        rw [Option.map_none,Option.toList_none,List.append_nil]
        exact whole.bare
      | some capability =>
        rw [capability] at whole
        rw [named]
        exact whole.revoke
    rw [dropBinding_eq found named]
    refine ⟨Tracks.unpublish sound.tracked found (named ▸ endCalls_own world.held row) ?_ ?_,sound.ascending,sound.handles,sound.ledgers⟩
    · rintro ⟨one,member,same⟩
      have referenced : (world.held.any fun other => other.id == row.id) = true :=
        List.any_eq_true.mpr ⟨one,member,beq_iff_eq.mpr (same.trans named.symm)⟩
      rw [endCalls,if_pos referenced,List.append_nil]
      exact revoked
    · intro free
      have unreferenced : ¬(world.held.any fun other => other.id == row.id) = true := by
        rw [List.any_eq_true]
        rintro ⟨one,member,same⟩
        exact free one member ((beq_iff_eq.mp same).trans named)
      rw [endCalls,if_neg unreferenced,← List.append_assoc,named]
      rw [named] at revoked
      exact revoked.release

theorem binding_eq_ok {id : Nat} {owner : OwnerKey} {row : Binding} (found : world.binding id owner = .ok row) :
    world.rows.lookup id = some row ∧ row.owner = owner ∧ world.isLive row = true := by
  rw [World.binding] at found
  split at found
  · exact nomatch found
  · next binding here =>
    split at found
    · next valid =>
      obtain rfl := Except.ok.inj found
      rw [Bool.and_eq_true,beq_iff_eq] at valid
      exact ⟨here,valid⟩
    · exact nomatch found

theorem Sound.hold (sound : Sound world) (id : Nat) (owner : OwnerKey) : Sound (world.hold id owner) := by
  rw [World.hold]
  split
  · exact sound
  · next row found =>
    have here := (binding_eq_ok found).1
    have named := sound.tracked.rowId id row here
    exact ⟨sound.tracked.hold (.inr (named ▸ here)),sound.ascending,sound.handles,sound.ledgers⟩

theorem Sound.holdAgain (sound : Sound world) (position : Nat) : Sound (world.holdAgain position) := by
  rw [World.holdAgain]
  split
  · exact sound
  · next row found => exact ⟨sound.tracked.hold (.inl (List.mem_of_getElem? found)),sound.ascending,sound.handles,sound.ledgers⟩

theorem Sound.letGo (sound : Sound world) (position : Nat) : Sound (world.letGo position) := by
  rw [World.letGo]
  split
  · exact sound
  · next row found =>
    have member := List.mem_of_getElem? found
    have fewer : ∀ other ∈ world.held.eraseIdx position, other ∈ world.held := fun _ inRest => List.mem_of_mem_eraseIdx inRest
    have others : ∀ other ∈ world.held, other.id ≠ row.id → other ∈ world.held.eraseIdx position := by
      intro other inHeld apart
      obtain ⟨index,here⟩ := List.mem_iff_getElem?.mp inHeld
      refine List.mem_eraseIdx_iff_getElem?.mpr ⟨index,fun same => apart ?_,here⟩
      rw [same,found] at here
      rw [Option.some.inj here]
    have tracks := sound.tracked.letGo member fewer others
    simp only [World.dropReference]
    split
    · next referenced =>
      rw [if_pos referenced] at tracks
      exact ⟨tracks,sound.ascending,sound.handles,sound.ledgers⟩
    · next last =>
      rw [if_neg last] at tracks
      rw [release_eq]
      exact ⟨tracks,sound.ascending,sound.handles,sound.ledgers⟩

theorem Sound.setPhase (sound : Sound world) (owner : Nat) (phase : PackageFunctionPhase) : Sound (world.setPhase owner phase) := by
  rw [World.setPhase]
  split
  · exact sound
  · exact ⟨sound.tracked,sound.ascending,sound.handles,sound.ledgers⟩

theorem Sound.dropBindings (sound : Sound world) (ids : List Nat) : Sound (ids.foldl World.dropBinding world) := by
  induction ids generalizing world with
  | nil => exact sound
  | cons id rest ih => exact ih (sound.dropBinding id)

theorem Sound.dropActive (sound : Sound world) (handle : Nat) : Sound (world.dropActive handle) := by
  rw [World.dropActive]
  split
  · exact sound
  · next active _ =>
    refine Sound.dropBindings ?_ active.ids.reverse
    have retired := sound.setPhase active.owner .retired
    exact ⟨retired.tracked,retired.ascending,retired.handles,retired.ledgers⟩

/-- The bindings a ledger lists. -/
def bindingIds (resources : List Resource) : List Nat :=
  resources.filterMap fun resource => match resource with
    | .functionBinding id => some id
    | _ => none

theorem mem_bindingIds {resources : List Resource} {id : Nat} : id ∈ bindingIds resources ↔ .functionBinding id ∈ resources := by
  rw [bindingIds,List.mem_filterMap]
  constructor
  · rintro ⟨resource,member,same⟩
    cases resource <;> simp at same
    exact same ▸ member
  · exact fun member => ⟨_,member,rfl⟩

theorem dropResources_eq (resources : List Resource) (world : World) :
    resources.foldl World.dropResource world = (bindingIds resources).foldl World.dropBinding world := by
  induction resources generalizing world with
  | nil => rfl
  | cons resource rest ih =>
    rw [List.foldl_cons,ih]
    cases resource <;> rfl

theorem unloadOwner_eq (id : String) : world.unloadOwner id =
    (bindingIds (((world.plugins.table.entries id).map fun entry => entry.2.teardownOrder).getD [])).foldl World.dropBinding
      { world with plugins := (world.plugins.remove id).1 } := by
  rw [World.unloadOwner]
  cases entry : world.plugins.table.entries id with
  | none =>
    have removed : world.plugins.remove id = ((world.plugins.remove id).1,none) := Prod.ext rfl entry
    rw [removed]
    rfl
  | some pair =>
    have removed : world.plugins.remove id = ((world.plugins.remove id).1,some pair) := Prod.ext rfl entry
    rw [removed]
    exact dropResources_eq _ _

theorem Sound.ofPlugins (sound : Sound world) (op : Plugin.Op) : Sound { world with plugins := Plugin.advance world.plugins op } := by
  obtain ⟨acquired,refines⟩ := sound.ledgers
  exact ⟨sound.tracked,sound.ascending,sound.handles,_,Plugin.advance_refines refines op⟩

theorem Sound.unloadOwner (sound : Sound world) (id : String) : Sound (world.unloadOwner id) := by
  rw [unloadOwner_eq]
  exact (sound.ofPlugins (.remove id)).dropBindings _

theorem Sound.takeId (sound : Sound world) : Sound ((world.takeId.map Prod.snd).getD world) := by
  cases taken : world.takeId with
  | none => exact sound
  | some pair =>
    obtain ⟨id,later⟩ := pair
    obtain ⟨rfl,rfl⟩ := takeId_eq_some taken
    have unborn := sound.tracked.fresh (Nat.le_refl world.nextId)
    rw [← List.append_nil world.calls] at unborn
    have spent := sound.tracked.spend [] (fun _ member => nomatch member) (.inl unborn)
    rw [List.append_nil] at spent
    exact ⟨spent,sound.ascending,sound.handles,sound.ledgers⟩

/-- Every operation keeps the world sound. -/
theorem Sound.execute (sound : Sound world) (operation : Operation) : Sound (FunctionBindings.execute world operation) := by
  cases operation with
  | loadOwner id => exact sound.ofPlugins (.insert id)
  | recordOther id generation resource =>
    rw [FunctionBindings.execute]
    split
    · exact sound
    · exact sound.ofPlugins (.record id generation resource)
  | releaseOther id generation resource =>
    rw [FunctionBindings.execute]
    split
    · exact sound
    · exact sound.ofPlugins (.release id generation resource)
  | mint id =>
    rw [FunctionBindings.execute,World.mint]
    split
    · exact sound
    · exact ⟨sound.tracked,sound.ascending,sound.handles,sound.ledgers⟩
  | setSource owner source =>
    rw [FunctionBindings.execute,World.setSource]
    split
    · exact sound
    · exact ⟨sound.tracked,sound.ascending,sound.handles,sound.ledgers⟩
  | takeId => exact sound.takeId
  | prepareOwner intendedId candidate answers => exact (sound.prepareOwner intendedId candidate answers).1
  | preparePackageOwner owner candidate answers => exact (sound.preparePackageOwner owner candidate answers).1
  | activateOwner handle owner limit activates => exact (sound.activateOwner handle owner limit activates).1
  | activatePackageOwner handle owner activates => exact (sound.activatePackageOwner handle owner activates).1
  | dropReceipt handle => exact (sound.dropReceipt handle).1
  | dropBinding id => exact sound.dropBinding id
  | dropActive handle => exact sound.dropActive handle
  | unloadOwner id => exact sound.unloadOwner id
  | hold id owner => exact sound.hold id owner
  | holdAgain position => exact sound.holdAgain position
  | letGo position => exact sound.letGo position

theorem Sound.start : Sound World.start where
  tracked := Tracks.start
  ascending := fun _ _ found => nomatch found
  handles := fun _ _ => rfl
  ledgers := ⟨_,Plugin.new_refines⟩

theorem Sound.run (sound : Sound world) (operations : List Operation) : Sound (operations.foldl FunctionBindings.execute world) := by
  induction operations generalizing world with
  | nil => exact sound
  | cons operation rest ih => exact ih (sound.execute operation)

end Drop

end S2Script.FunctionBindings
