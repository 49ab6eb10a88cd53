import S2Script.FunctionBindingsRuns

/-! Activation: the owner's ledger first, then the native capabilities, then the rows; and a
failure on the way takes back what was done. -/
namespace S2Script.FunctionBindings

open Plugin (Resource Acquisitions releaseRecent)

section Ledger

theorem amend_amend (acquired : Acquisitions) (id : String) (generation : Nat) (first second : List Resource → List Resource) :
    (acquired.amend id generation first).amend id generation second = acquired.amend id generation fun held => second (first held) := by
  cases entry : acquired.entries id with
  | none => simp [Acquisitions.amend,entry]
  | some pair =>
    obtain ⟨live,held⟩ := pair
    by_cases same : live = generation <;> simp [Acquisitions.amend,entry,same]

theorem amend_unchanged (acquired : Acquisitions) (id : String) (generation : Nat) {change : List Resource → List Resource}
    (same : ∀ held, change held = held) : acquired.amend id generation change = acquired := by
  cases entry : acquired.entries id with
  | none => simp [Acquisitions.amend,entry]
  | some pair =>
    obtain ⟨live,held⟩ := pair
    by_cases equal : live = generation
    · simp only [Acquisitions.amend,entry,equal,if_true,same]
      rw [← equal,← entry,Function.update_eq_self]
    · simp [Acquisitions.amend,entry,equal]

/-- The owner's acquisitions with the ids' bindings after them. -/
def pushed (acquired : Acquisitions) (owner : OwnerKey) (ids : List Nat) : Acquisitions :=
  acquired.amend owner.id owner.generation (· ++ ids.map Resource.functionBinding)

theorem pushed_nil (acquired : Acquisitions) (owner : OwnerKey) : pushed acquired owner [] = acquired :=
  amend_unchanged acquired _ _ fun held => List.append_nil held

theorem pushed_snoc (acquired : Acquisitions) (owner : OwnerKey) (ids : List Nat) (id : Nat) :
    (pushed acquired owner ids).amend owner.id owner.generation (· ++ [.functionBinding id]) = pushed acquired owner (ids ++ [id]) := by
  simp [pushed,amend_amend]

theorem pushed_release (acquired : Acquisitions) (owner : OwnerKey) (ids : List Nat) (id : Nat) :
    (pushed acquired owner (ids ++ [id])).amend owner.id owner.generation (releaseRecent (.functionBinding id)) =
      pushed acquired owner ids := by
  rw [pushed,amend_amend,pushed]
  congr 1
  funext held
  rw [List.map_append,List.map_singleton,← List.append_assoc]
  exact (Plugin.PluginLedger.releaseRecent_split _ [] (List.not_mem_nil)).trans (List.append_nil _)

variable {plugins : Plugin.Registry} {acquired : Acquisitions}

/-- The ids recorded so far are in the ledger, all of them if none was refused. -/
theorem recordActivations_spec (owner : OwnerKey) (ids : List Nat) (limit : Option Nat) (recorded : List Nat)
    (refines : Plugin.Refines plugins (pushed acquired owner recorded)) :
    Plugin.Refines (recordActivations plugins owner limit recorded ids).1
        (pushed acquired owner (recordActivations plugins owner limit recorded ids).2.1) ∧
      ((recordActivations plugins owner limit recorded ids).2.2 = true →
        (recordActivations plugins owner limit recorded ids).2.1 = recorded ++ ids) := by
  induction ids generalizing plugins limit recorded with
  | nil => cases limit <;> exact ⟨refines,fun _ => (List.append_nil recorded).symm⟩
  | cons id rest ih =>
    have one : ∀ limit, limit ≠ some 0 → recordActivations plugins owner limit recorded (id :: rest) =
        if (plugins.record owner.id owner.generation (.functionBinding id)).2 = true then
          recordActivations (plugins.record owner.id owner.generation (.functionBinding id)).1 owner (limit.map (· - 1))
            (recorded ++ [id]) rest
        else ((plugins.record owner.id owner.generation (.functionBinding id)).1,recorded,false) := by
      intro limit some
      rcases result : plugins.record owner.id owner.generation (.functionBinding id) with ⟨later,_ | _⟩
      all_goals
        cases limit with
        | none => simp only [recordActivations,result,Option.map_none]; rfl
        | some n => cases n with
          | zero => exact absurd rfl some
          | succ n => simp only [recordActivations,result,Option.map_some,Nat.add_sub_cancel]; rfl
    by_cases refused : limit = some 0
    · subst refused
      exact ⟨refines,fun all => by cases all⟩
    · rw [one limit refused]
      have advanced := Plugin.advance_refines refines (.record owner.id owner.generation (.functionBinding id))
      rcases Plugin.Registry.record_cases plugins owner.id owner.generation (.functionBinding id) with
        ⟨ledger,_,recordedIn⟩ | ⟨_,stale⟩
      · rw [Plugin.advance,Acquisitions.advance,pushed_snoc,recordedIn] at advanced
        simp only [recordedIn]
        obtain ⟨later,whole⟩ := ih (limit.map (· - 1)) (recorded ++ [id]) advanced
        exact ⟨later,fun all => by simpa using whole all⟩
      · simp only [stale]
        exact ⟨refines,fun all => by cases all⟩

/-- Taking the recorded ids out again leaves the acquisitions there were. -/
theorem releaseActivations_spec (owner : OwnerKey) (recorded : List Nat)
    (refines : Plugin.Refines plugins (pushed acquired owner recorded)) :
    Plugin.Refines (releaseActivations plugins owner recorded) acquired := by
  induction recorded using List.reverseRecOn generalizing plugins with
  | nil => exact pushed_nil acquired owner ▸ refines
  | append_singleton ids id ih =>
    have released := Plugin.advance_refines refines (.release owner.id owner.generation (.functionBinding id))
    rw [Plugin.advance,Acquisitions.advance,pushed_release] at released
    rw [releaseActivations,List.reverse_append]
    exact ih released

/-- What an owner's ledger holds, oldest first, with the generation it is of. -/
def acquisitions (plugins : Plugin.Registry) (id : String) : Option (Nat × List Resource) :=
  (plugins.table.entries id).map fun entry => (entry.1,entry.2.active.map Prod.snd)

theorem acquisitions_eq (refines : Plugin.Refines plugins acquired) : acquisitions plugins = acquired.entries := by
  funext id
  have keeps := refines.ledgers id
  cases entry : plugins.table.entries id with
  | none =>
    rw [entry] at keeps
    cases held : acquired.entries id with
    | none => rw [acquisitions,entry,Option.map_none]
    | some pair =>
      rw [held] at keeps
      exact nomatch keeps
  | some pair =>
    obtain ⟨held,same,exact⟩ := refines.entry entry
    rw [acquisitions,entry,same,Option.map_some,exact.holds]

end Ledger

section Activate

theorem activateCapabilities_eq (world : World) (owner : OwnerKey) (activates : Nat → Bool) (bindings : List PreparedBinding) :
    ∃ more, (world.activateCapabilities owner activates bindings).1 = { world with calls := world.calls ++ more } ∧
      ∀ call ∈ more, call.binding? = none := by
  induction bindings generalizing world with
  | nil => exact ⟨[],by simp [World.activateCapabilities],fun _ member => nomatch member⟩
  | cons prepared rest ih =>
    rw [World.activateCapabilities]
    cases prepared.capability with
    | none => exact ih world
    | some capability =>
      simp only
      split
      · obtain ⟨more,calls,silent⟩ := ih (world.call (.activate capability owner))
        refine ⟨.activate capability owner :: more,by simpa [World.call] using calls,fun call member => ?_⟩
        rcases List.mem_cons.mp member with rfl | later
        · rfl
        · exact silent call later
      · exact ⟨[.activate capability owner],rfl,fun call member => List.mem_singleton.mp member ▸ rfl⟩

/-- Publishing only adds rows. -/
theorem publish_eq (world : World) (lifetime : BindingLifetime) (owner : OwnerKey) (bindings : List PreparedBinding) :
    world.publish lifetime owner bindings = { world with rows := (world.publish lifetime owner bindings).rows } := by
  induction bindings generalizing world with
  | nil => rfl
  | cons prepared rest ih => exact ih _

theorem Tracks.publishAll (world : World) {bindings prepared : List PreparedBinding} {held : List Binding} {nextId : Nat}
    {calls : List NativeCall} (tracks : Tracks (bindings ++ prepared) world.rows held nextId calls) (lifetime : BindingLifetime)
    (owner : OwnerKey) : Tracks prepared (world.publish lifetime owner bindings).rows held nextId calls := by
  induction bindings generalizing world with
  | nil => exact tracks
  | cons one rest ih =>
    refine ih { world with rows := world.rows.insert one.id (one.published lifetime owner) } ?_
    exact tracks.publish rfl rfl rfl

/-- The rows after publishing: one for each binding, the others as before. -/
theorem publish_lookup (world : World) (lifetime : BindingLifetime) (owner : OwnerKey) {bindings : List PreparedBinding}
    (distinct : (bindings.map PreparedBinding.id).Nodup) (id : Nat) (row : Binding) :
    (world.publish lifetime owner bindings).rows.lookup id = some row ↔
      (∃ one ∈ bindings, one.id = id ∧ row = one.published lifetime owner) ∨
        (∀ one ∈ bindings, one.id ≠ id) ∧ world.rows.lookup id = some row := by
  induction bindings generalizing world with
  | nil => simp [World.publish]
  | cons one rest ih =>
    obtain ⟨unlisted,restDistinct⟩ := List.nodup_cons.mp distinct
    have step := ih { world with rows := world.rows.insert one.id (one.published lifetime owner) } restDistinct
    refine step.trans ?_
    rw [Table.lookup_insert_eq]
    constructor
    · rintro (⟨other,later,same,rowEq⟩ | ⟨apart,here⟩)
      · exact .inl ⟨other,List.mem_cons_of_mem _ later,same,rowEq⟩
      · split at here
        · next same => exact .inl ⟨one,List.mem_cons_self,same.symm,(Option.some.inj here).symm⟩
        · next differ =>
          refine .inr ⟨fun other member => ?_,here⟩
          rcases List.mem_cons.mp member with rfl | later
          · exact fun same => differ same.symm
          · exact apart other later
    · rintro (⟨other,member,same,rowEq⟩ | ⟨apart,here⟩)
      · rcases List.mem_cons.mp member with rfl | later
        · refine .inr ⟨fun another later equal => unlisted ?_,?_⟩
          · exact List.mem_map.mpr ⟨another,later,equal.trans same.symm⟩
          · rw [if_pos same.symm,rowEq]
        · exact .inl ⟨other,later,same,rowEq⟩
      · refine .inr ⟨fun other later => apart other (List.mem_cons_of_mem _ later),?_⟩
        rw [if_neg (apart one List.mem_cons_self).symm]
        exact here

variable {world : World}

/-- A receipt that is taken leaves its bindings in hand. -/
theorem Sound.take (sound : Sound world) {handle : Nat} {receipt : PreparedOwnerReceipt}
    (found : world.receipts.lookup handle = some receipt) :
    World.Tracked { world with receipts := world.receipts.erase handle } receipt.bindings := by
  refine Tracks.perm sound.tracked ?_
  have split := (Table.values_erase_perm found).flatMap_right PreparedOwnerReceipt.bindings
  rw [List.flatMap_cons] at split
  exact split.symm

theorem Sound.fewer (sound : Sound world) (handle : Nat) :
    (∀ other receipt, (world.receipts.erase handle).lookup other = some receipt → Ascending receipt.bindings) ∧
      ∀ other, world.nextHandle ≤ other → (world.receipts.erase handle).lookup other = none := by
  constructor
  · intro other receipt found
    rw [Table.lookup_erase_eq] at found
    split at found
    · exact nomatch found
    · exact sound.ascending other receipt found
  · intro other above
    rw [Table.lookup_erase_eq]
    split
    · rfl
    · exact sound.handles other above

/-- Nothing is left of a failed activation but the missing receipt and the native calls. -/
structure Undone (world later : World) : Prop where
  packages : later.packages = world.packages
  nextPackage : later.nextPackage = world.nextPackage
  nextId : later.nextId = world.nextId
  rows : later.rows = world.rows
  held : later.held = world.held
  actives : later.actives = world.actives
  receipts : ∀ handle receipt, later.receipts.lookup handle = some receipt → world.receipts.lookup handle = some receipt
  acquisitions : acquisitions later.plugins = acquisitions world.plugins

/-- A receipt that the call takes is gone, whatever comes of it. -/
def Taken (world later : World) (handle : Nat) (takes : PreparedOwnerReceipt → Prop) : Prop :=
  ∀ receipt, world.receipts.lookup handle = some receipt → takes receipt → later.receipts = world.receipts.erase handle

theorem Undone.refl (world : World) : Undone world world := ⟨rfl,rfl,rfl,rfl,rfl,rfl,fun _ _ => id,rfl⟩

/-- An activation that fails drops its receipt's bindings, whatever native calls it made before. -/
theorem Sound.dropTaken (sound : Sound world) {handle : Nat} {receipt : PreparedOwnerReceipt}
    (found : world.receipts.lookup handle = some receipt) (plugins : Plugin.Registry)
    (kept : ∀ acquired, Plugin.Refines world.plugins acquired → Plugin.Refines plugins acquired) (more : List NativeCall)
    (silent : ∀ call ∈ more, call.binding? = none) :
    Sound (World.dropPrepared { world with plugins := plugins, receipts := world.receipts.erase handle, calls := world.calls ++ more }
        receipt.bindings) ∧
      Undone world (World.dropPrepared
        { world with plugins := plugins, receipts := world.receipts.erase handle, calls := world.calls ++ more } receipt.bindings) ∧
      ∀ takes, Taken world (World.dropPrepared
        { world with plugins := plugins, receipts := world.receipts.erase handle, calls := world.calls ++ more } receipt.bindings)
        handle takes := by
  obtain ⟨ascending,handles⟩ := sound.fewer handle
  obtain ⟨acquired,refines⟩ := sound.ledgers
  have tracked : World.Tracked { world with plugins := plugins, receipts := world.receipts.erase handle, calls := world.calls ++ more }
      receipt.bindings := Tracks.append_other (sound.take found) silent
  have dropped := tracked.drop
  rw [dropPrepared_eq] at dropped ⊢
  refine ⟨⟨dropped,ascending,handles,acquired,kept acquired refines⟩,⟨rfl,rfl,rfl,rfl,rfl,rfl,?_,?_⟩,fun _ _ _ _ => rfl⟩
  · intro other one here
    simp only at here
    rw [Table.lookup_erase_eq] at here
    split at here
    · exact nomatch here
    · exact here
  · rw [acquisitions_eq refines]
    exact acquisitions_eq (kept acquired refines)

/-- What a plugin's activation publishes: the receipt's bindings as rows, recorded after what its
ledger held. -/
structure Activated (world later : World) (handle : Nat) (owner : OwnerKey) (ids : List Nat) : Prop where
  receipt : ∃ receipt, world.receipts.lookup handle = some receipt ∧ ids = receipt.bindings.map PreparedBinding.id ∧
    Ascending receipt.bindings ∧ later.rows = (world.publish .plugin owner receipt.bindings).rows
  unpublished : ∀ id row, world.rows.lookup id = some row → row.owner ≠ owner
  isPlugin : owner.kind = .plugin
  packages : later.packages = world.packages
  nextId : later.nextId = world.nextId
  held : later.held = world.held
  receipts : later.receipts = world.receipts.erase handle
  actives : later.actives = world.actives
  ledger : ∃ held, acquisitions world.plugins owner.id = some (owner.generation,held) ∧
    acquisitions later.plugins = Function.update (acquisitions world.plugins) owner.id
      (some (owner.generation,held ++ ids.map Resource.functionBinding))

def ActivatesOrUndoes (world later : World) (handle : Nat) (owner : OwnerKey) : Except String (List Nat) → Prop
  | .error _ => Undone world later ∧ Taken world later handle fun receipt => receipt.host = none
  | .ok ids => Activated world later handle owner ids

theorem publish_congr (world later : World) (rows : later.rows = world.rows) (lifetime : BindingLifetime) (owner : OwnerKey)
    (bindings : List PreparedBinding) : (later.publish lifetime owner bindings).rows = (world.publish lifetime owner bindings).rows := by
  induction bindings generalizing world later with
  | nil => exact rows
  | cons one rest ih =>
    refine ih { world with rows := world.rows.insert one.id (one.published lifetime owner) }
      { later with rows := later.rows.insert one.id (one.published lifetime owner) } ?_
    simp only [rows]

theorem pushed_entries {acquired : Acquisitions} {owner : OwnerKey} {held : List Resource}
    (live : acquired.entries owner.id = some (owner.generation,held)) (ids : List Nat) :
    (pushed acquired owner ids).entries = Function.update acquired.entries owner.id
      (some (owner.generation,held ++ ids.map Resource.functionBinding)) := by
  simp [pushed,Acquisitions.amend,live]

/-- Publishing what was in hand. -/
theorem Sound.publishTaken (sound : Sound world) {handle : Nat} {receipt : PreparedOwnerReceipt}
    (found : world.receipts.lookup handle = some receipt) {plugins : Plugin.Registry}
    (ledgers : ∃ acquired, Plugin.Refines plugins acquired) {more : List NativeCall}
    (silent : ∀ call ∈ more, call.binding? = none) (lifetime : BindingLifetime) (owner : OwnerKey) :
    Sound (World.publish { world with plugins := plugins, receipts := world.receipts.erase handle, calls := world.calls ++ more }
      lifetime owner receipt.bindings) := by
  obtain ⟨ascending,handles⟩ := sound.fewer handle
  have tracked : World.Tracked { world with plugins := plugins, receipts := world.receipts.erase handle, calls := world.calls ++ more }
      receipt.bindings := Tracks.append_other (sound.take found) silent
  have published := Tracks.publishAll _ tracked lifetime owner
  rw [publish_eq]
  exact ⟨published,ascending,handles,ledgers⟩

theorem entry_of_live {plugins : Plugin.Registry} {acquired : Acquisitions} (refines : Plugin.Refines plugins acquired) {id : String}
    {generation : Nat} (live : plugins.isLive id generation = true) : ∃ held, acquired.entries id = some (generation,held) := by
  cases entry : plugins.table.entries id with
  | none => simp [Plugin.Registry.isLive,Liveness.LiveTable.isLive,Liveness.LiveTable.idOf,entry] at live
  | some pair =>
    have same : pair.1 = generation := by
      simpa [Plugin.Registry.isLive,Liveness.LiveTable.isLive,Liveness.LiveTable.idOf,entry] using live
    obtain ⟨held,found,_⟩ := refines.entry entry
    exact ⟨held,same ▸ found⟩

theorem Sound.activateOwner (sound : Sound world) (handle : Nat) (owner : OwnerKey) (limit : Option Nat) (activates : Nat → Bool) :
    Sound (world.activateOwner handle owner limit activates).1 ∧
      ActivatesOrUndoes world (world.activateOwner handle owner limit activates).1 handle owner
        (world.activateOwner handle owner limit activates).2 := by
  rw [World.activateOwner]
  cases found : world.receipts.lookup handle with
  | none => exact ⟨sound,Undone.refl world,fun _ known => nomatch found.symm.trans known⟩
  | some receipt =>
    have plain := sound.dropTaken found world.plugins (fun _ refines => refines) [] (fun _ member => nomatch member)
    rw [List.append_nil] at plain
    simp only
    split
    · next sealed =>
      refine ⟨sound,Undone.refl world,fun other known own => ?_⟩
      obtain rfl := Option.some.inj (found.symm.trans known)
      rw [own] at sealed
      exact nomatch sealed
    · split
      · exact ⟨plain.1,plain.2.1,plain.2.2 _⟩
      · next fits =>
        split
        · exact ⟨plain.1,plain.2.1,plain.2.2 _⟩
        · next live =>
          split
          · exact ⟨plain.1,plain.2.1,plain.2.2 _⟩
          · next unpublished =>
            obtain ⟨acquired,refines⟩ := sound.ledgers
            have recorded : ∀ {acquired}, Plugin.Refines world.plugins acquired → _ := fun {acquired} refines =>
              recordActivations_spec owner (receipt.bindings.map PreparedBinding.id) limit []
                ((pushed_nil acquired owner).symm ▸ refines)
            cases result : recordActivations world.plugins owner limit [] (receipt.bindings.map PreparedBinding.id) with
            | mk plugins rest =>
              obtain ⟨ids,all⟩ := rest
              rw [result] at recorded
              have rolled : ∀ acquired, Plugin.Refines world.plugins acquired →
                  Plugin.Refines (releaseActivations plugins owner ids) acquired := fun acquired refines =>
                releaseActivations_spec owner ids (recorded refines).1
              cases all with
              | false =>
                have dropped := sound.dropTaken found _ rolled [] (fun _ member => nomatch member)
                rw [List.append_nil] at dropped
                exact ⟨dropped.1,dropped.2.1,dropped.2.2 _⟩
              | true =>
                have idsEq : ids = receipt.bindings.map PreparedBinding.id := by simpa using (recorded refines).2 rfl
                obtain ⟨more,calls,silent⟩ := activateCapabilities_eq
                  { world with plugins := plugins, receipts := world.receipts.erase handle } owner activates receipt.bindings
                simp only
                cases activated : World.activateCapabilities
                    { world with plugins := plugins, receipts := world.receipts.erase handle } owner activates receipt.bindings with
                | mk later whole =>
                  rw [activated] at calls
                  simp only at calls
                  subst calls
                  cases whole with
                  | false =>
                    have dropped := sound.dropTaken found _ rolled _ silent
                    exact ⟨dropped.1,dropped.2.1,dropped.2.2 _⟩
                  | true =>
                    obtain ⟨held,entry⟩ := entry_of_live refines (by simpa using live)
                    have published : Activated world (World.publish
                        { world with plugins := plugins, receipts := world.receipts.erase handle, calls := world.calls ++ more }
                        .plugin owner receipt.bindings) handle owner ids := {
                      receipt := ⟨receipt,found,idsEq,sound.ascending handle receipt found,
                        publish_congr world { world with plugins := plugins, receipts := world.receipts.erase handle, calls := world.calls ++ more }
                          rfl _ _ _⟩
                      unpublished := by
                        intro id row here same
                        exact unpublished (List.any_eq_true.mpr ⟨row,(Table.mem_values _ _).mpr ⟨id,here⟩,beq_iff_eq.mpr same⟩)
                      isPlugin := by
                        by_contra other
                        exact fits (by simp [other])
                      packages := by rw [publish_eq]
                      nextId := by rw [publish_eq]
                      held := by rw [publish_eq]
                      receipts := by rw [publish_eq]
                      actives := by rw [publish_eq]
                      ledger := by
                        refine ⟨held,(congrFun (acquisitions_eq refines) owner.id).trans entry,?_⟩
                        rw [publish_eq]
                        exact (acquisitions_eq (recorded refines).1).trans
                          ((pushed_entries entry ids).trans (by rw [acquisitions_eq refines])) }
                    exact ⟨sound.publishTaken found ⟨_,(recorded refines).1⟩ silent .plugin owner,published⟩

/-- What a package's activation publishes, with the package active from then on. -/
structure PackageActivated (world later : World) (handle owner result : Nat) : Prop where
  receipt : ∃ receipt state, world.receipts.lookup handle = some receipt ∧ world.packages.lookup owner = some state ∧
    later.rows = (world.publish (.package owner) state.key receipt.bindings).rows ∧
    later.packages = world.packages.insert owner { state with phase := .active } ∧
    later.actives = world.actives.insert world.nextHandle ⟨owner,receipt.bindings.map PreparedBinding.id⟩
  result : result = world.nextHandle
  plugins : later.plugins = world.plugins
  nextId : later.nextId = world.nextId
  held : later.held = world.held
  receipts : later.receipts = world.receipts.erase handle
  nextHandle : later.nextHandle = world.nextHandle + 1

def PackageActivatesOrUndoes (world later : World) (handle owner : Nat) : Except String Nat → Prop
  | .error _ => Undone world later ∧ Taken world later handle fun receipt => receipt.host.isSome = true ∧ (world.packages.lookup owner).isSome
  | .ok result => PackageActivated world later handle owner result

theorem Sound.activatePackageOwner (sound : Sound world) (handle owner : Nat) (activates : Nat → Bool) :
    Sound (world.activatePackageOwner handle owner activates).1 ∧
      PackageActivatesOrUndoes world (world.activatePackageOwner handle owner activates).1 handle owner
        (world.activatePackageOwner handle owner activates).2 := by
  rw [World.activatePackageOwner]
  cases found : world.receipts.lookup handle with
  | none => exact ⟨sound,Undone.refl world,fun _ known => nomatch found.symm.trans known⟩
  | some receipt =>
    cases known : world.packages.lookup owner with
    | none =>
      refine ⟨sound,Undone.refl world,fun _ _ own => ?_⟩
      rw [known] at own
      exact nomatch own.2
    | some state =>
      have plain := sound.dropTaken found world.plugins (fun _ refines => refines) [] (fun _ member => nomatch member)
      rw [List.append_nil] at plain
      simp only
      split
      · next unsealed =>
        refine ⟨sound,Undone.refl world,fun other here own => ?_⟩
        obtain rfl := Option.some.inj (found.symm.trans here)
        rw [Option.isNone_iff_eq_none] at unsealed
        rw [unsealed] at own
        exact nomatch own.1
      · split
        · exact ⟨plain.1,plain.2.1,plain.2.2 _⟩
        · split
          · exact ⟨plain.1,plain.2.1,plain.2.2 _⟩
          · obtain ⟨more,calls,silent⟩ := activateCapabilities_eq
              { world with receipts := world.receipts.erase handle } state.key activates receipt.bindings
            cases activated : World.activateCapabilities { world with receipts := world.receipts.erase handle } state.key activates
                receipt.bindings with
            | mk later whole =>
              rw [activated] at calls
              simp only at calls
              subst calls
              cases whole with
              | false =>
                have dropped := sound.dropTaken found world.plugins (fun _ refines => refines) more silent
                exact ⟨dropped.1,dropped.2.1,dropped.2.2 _⟩
              | true =>
                have published := sound.publishTaken found sound.ledgers silent (.package owner) state.key
                have rows := publish_congr world (World.setPhase
                  { world with receipts := world.receipts.erase handle, calls := world.calls ++ more } owner .active)
                  (by simp [World.setPhase,known]) (.package owner) state.key receipt.bindings
                rw [publish_eq] at published
                simp only [World.setPhase,known] at rows ⊢
                rw [publish_eq,rows]
                have plainRows := publish_congr world { world with receipts := world.receipts.erase handle, calls := world.calls ++ more }
                  rfl (.package owner) state.key receipt.bindings
                rw [plainRows] at published
                refine ⟨⟨published.tracked,published.ascending,fun other above => ?_,published.ledgers⟩,?_⟩
                · exact published.handles other (Nat.le_of_succ_le above)
                · exact {
                    receipt := ⟨receipt,state,found,known,rfl,rfl,rfl⟩
                    result := rfl
                    plugins := rfl
                    nextId := rfl
                    held := rfl
                    receipts := rfl
                    nextHandle := rfl }

end Activate

end S2Script.FunctionBindings
