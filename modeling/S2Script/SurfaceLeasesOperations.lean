import S2Script.SurfaceLeasesRetirement

/-! Every operation of the surface registry, from its checks to its first engine call,
keeps the invariant, whatever is in flight when it starts. -/
namespace S2Script.SurfaceLeases

open Liveness Reentrant

/-- Felling trees sends the leaders among them into flight; parents of what stays stay. -/
theorem removeMany_shifts {w : World} {tasks : List Task} (valid : Inv w tasks)
    (roots : List Nat) :
    Shifts w [] { w with transition := true, registry := (w.registry.removeMany roots).1 }
      ((w.registry.removeMany roots).2.map Lease.toRecord) := by
  have fells := w.registry.removeMany_fells roots valid.sound.distinct
  generalize w.registry.removeMany roots = run at fells ⊢
  obtain ⟨registry,gone⟩ := run
  have stays : ∀ x, x ∈ registry.records ↔ x ∈ w.held ∧ doomed roots x = false := by
    intro x
    rw [fells.records,List.mem_filter]
    simp [World.held]
  have pending : registry.pending = w.registry.pending := fells.pending
  have queued : registry.pending.map Lease.toRecord = w.queued := by
    rw [pending,World.queued]
  exact {
    clients := .refl _
    entities := .refl _
    nextToken := Nat.le_refl _
    held := by
      simp only [World.held,fells.records]
      exact List.filter_sublist.subperm
    closed := by
      intro x member p linked y inside token
      have kept := (stays x).mp member
      refine (stays y).mpr ⟨inside,?_⟩
      have link := valid.sound.linked x kept.1 p linked
      obtain ⟨z,found,place,_⟩ := link.live
      have named : z.token = p.token := congrArg Place.token place
      obtain rfl := valid.sound.distinct.eq_of_token inside found (token.trans named.symm)
      have owned : y.policy ≠ .focus := by
        have policy : y.policy = p.policy := congrArg Place.policy place
        rw [policy]
        exact link.parent
      have root : y.parent = none := by
        cases parent : y.parent with
        | none => rfl
        | some q => exact absurd (valid.sound.linked y inside q parent).child owned
      have spared := kept.2
      simp only [doomed,linked,Option.any_some,Bool.or_eq_false_iff,decide_eq_false_iff_not]
        at spared
      simp [doomed,root,token,spared.2]
    moved := by
      refine ⟨gone.map Lease.toRecord,?_,?_,?_⟩
      · intro x member
        obtain ⟨l,out,rfl⟩ := List.mem_map.mp member
        exact (fells.fallen l out).1
      · simpa [World.held] using fells.size
      · rintro x (still | out)
        · exact .inl (queued ▸ still)
        · exact .inr (.inr out)
    queued := by
      have before := valid.sound.queuedDistinct
      rwa [← queued] at before
    painted := fun entry member => member
    leads := by
      intro entry member live x leads token
      cases fallen : doomed roots x with
      | false =>
        refine .inl ?_
        simp only [World.held,fells.records]
        exact leads.filter (by simp [fallen])
      | true =>
        exact .inr (mem_outstanding.mpr ⟨x,.inr (fells.leaders x leads fallen),token⟩)
    keeps := by
      intro entry member live before
      obtain ⟨x,inside,token⟩ := mem_outstanding.mp before
      refine mem_outstanding.mpr ⟨x,.inl ?_,token⟩
      rw [World.queued,queued]
      simpa using inside }

/-- An operation takes its records into flight. -/
theorem Inv.launch {w w' : World} {below : List Task} (valid : Inv w below)
    {records : List Record} {after : After} (shifts : Shifts w [] w' records)
    (guarded : Guarded w'.transition (⟨records,none,after⟩ :: below))
    (justified : after.Justified w')
    (outermost : ∀ r, after = .reserve r → Reserving w' [] records none r) :
    Inv w' (⟨records,none,after⟩ :: below) := by
  refine Inv.shift [] [⟨records,none,after⟩] valid (by simpa [flying] using shifts) guarded ?_ ?_
  · intro t member
    obtain rfl := List.mem_singleton.mp member
    exact justified
  · intro _ above t r split reserves
    cases above with
    | nil =>
      obtain rfl : (⟨records,none,after⟩ : Task) = t := by simpa using split
      exact outermost r reserves
    | cons first more => simp at split

/-- The books move on; a record that was dead stays dead. -/
theorem Inv.books {w w' : World} {tasks : List Task} (valid : Inv w tasks)
    (clients : w.clients.Evolves w'.clients)
    (entities : w.entities.Evolves w'.entities) (nextToken : w'.nextToken = w.nextToken)
    (held : w'.held.Perm w.held) (queued : w'.queued = w.queued) (painted : w'.painted = w.painted)
    (transition : w'.transition = w.transition) : Inv w' tasks := by
  have shifts : Shifts w [] w' [] := {
    clients := clients
    entities := entities
    nextToken := Nat.le_of_eq nextToken.symm
    held := held.subperm
    closed := fun x _ p _ y inside _ => held.mem_iff.mpr inside
    moved := ⟨[],by simp,by simp [held.length_eq],by simp [queued]⟩
    queued := queued ▸ valid.sound.queuedDistinct
    painted := fun entry member => painted ▸ member
    leads := fun entry _ _ x leads _ =>
      .inl ⟨held.mem_iff.mpr leads.1,fun other member => leads.2 other (held.mem_iff.mp member)⟩
    keeps := fun entry _ _ before => queued ▸ before }
  exact Inv.shift [] [] valid shifts (by rw [transition]; exact valid.guarded) (by simp) (by simp)

section Starts

variable {w : World} {stack : List (Op × Frame)} (op : Op)
  (valid : Inv w (tasksOf stack))
include valid

/-- Without a transition nothing is in flight. -/
theorem Inv.idle (idle : w.transition = false) : tasksOf stack = [] := by
  have guarded := valid.guarded
  cases tasks : tasksOf stack with
  | nil => rfl
  | cons t below =>
    rw [tasks] at guarded
    exact absurd guarded.1 (by simp [idle])

theorem release_valid (owner : String) (token : Nat) :
    Valid (.after op stack (w.release owner token)) := by
  unfold World.release
  split
  · exact valid
  next idle =>
    have none := valid.idle (by simpa using idle)
    split
    · apply retireAll_valid op stack (w.registry.removeTree token).2
      rw [none] at valid ⊢
      exact valid.launch (removeMany_shifts valid [token]) ⟨rfl,by simp [After.holds],.inl rfl⟩
        trivial (by simp)
    · exact valid

/-- A sweep, nested in whatever called out or outermost. -/
theorem removeWhere_valid (matching : Lease → Bool) {retain : Retain}
    (justified : ∀ entered, (After.sweep entered retain).Justified w) :
    Valid (.after op stack (w.removeWhere matching retain)) := by
  unfold World.removeWhere
  split
  · exact Inv.shift [] [] valid (finishSweep_shifts valid (justified false) []) valid.guarded
      (by simp) (by simp)
  · extract_lets roots
    apply retireAll_valid op stack (w.registry.removeMany roots).2
    refine valid.launch (removeMany_shifts valid roots) ?_ (justified _) (by simp)
    have guarded := valid.guarded
    cases tasks : tasksOf stack with
    | nil =>
      rw [tasks] at guarded
      have idle : w.transition = false := guarded
      exact ⟨rfl,by simp [After.holds,idle],.inl rfl⟩
    | cons t below =>
      rw [tasks] at guarded
      have taken : w.transition = true := guarded.1
      exact ⟨rfl,by simp [After.holds,taken],.inr (taken ▸ guarded)⟩

theorem clientEnd_valid (slot : Int) (client : Nat) :
    Valid (.after op stack (w.clientEnd slot client)) := by
  unfold World.clientEnd
  split
  next connected =>
    have evolves := LiveTable.Evolves.remove w.clients slot
    have left : Inv { w with clients := w.clients.remove slot } (tasksOf stack) :=
      Inv.books valid evolves (.refl _) rfl (.refl _) rfl rfl rfl
    refine removeWhere_valid op left _ fun entered => ⟨?_,?_⟩
    · simp [LiveTable.idOf_remove]
    · simp only [World.clientMatches,LiveTable.isLive,Bool.and_eq_true,beq_iff_eq] at connected
      exact Nat.lt_of_lt_of_le (valid.clients.minted connected.2).2 evolves.minting
  next => exact valid

theorem clientConnect_valid (slot : Int) : Inv (w.clientConnect slot) (tasksOf stack) := by
  unfold World.clientConnect
  split
  · exact Inv.books valid (.insert _ _ _) (.refl _) rfl (.refl _) rfl rfl rfl
  · exact valid

/-- A notification of the entity books retires the identity it displaced. -/
theorem notified_valid (index : Int) (change : EntityBooks × Option Nat)
    (evolves : w.entities.Evolves change.1)
    (retires : ∀ entity, change.2 = some entity → change.1.idOf index ≠ some entity ∧
      entity < w.entities.nextId) :
    Valid (.after op stack (w.notified index change)) := by
  have moved : Inv { w with entities := change.1 } (tasksOf stack) :=
    Inv.books valid (.refl _) evolves rfl (.refl _) rfl rfl rfl
  unfold World.notified
  split
  next entity retired =>
    obtain ⟨dead,minted⟩ := retires entity retired
    exact removeWhere_valid op moved _ fun entered =>
      ⟨dead,Nat.lt_of_lt_of_le minted evolves.minting⟩
  next => exact moved

theorem created_valid (index serial : Int) :
    Valid (.after op stack (w.notified index (w.entities.onCreated index serial))) := by
  refine notified_valid op valid index _ (EntityBooks.onCreated_evolves _ _ _) ?_
  intro entity retired
  exact ⟨EntityBooks.onCreated_retires valid.entities retired,(valid.entities.minted retired).2⟩

theorem spawned_valid (index serial : Int) :
    Valid (.after op stack (w.notified index (w.entities.onSpawned index serial))) := by
  refine notified_valid op valid index _ (EntityBooks.onSpawned_evolves _ _ _) ?_
  intro entity retired
  refine ⟨EntityBooks.onSpawned_retires valid.entities retired,?_⟩
  exact (valid.entities.minted (EntityBooks.onSpawned_retired retired)).2

theorem deleted_valid (index serial : Int) :
    Valid (.after op stack (w.notified index (w.entities.onDeleted index serial))) := by
  refine notified_valid op valid index _ (EntityBooks.onDeleted_evolves _ _ _) ?_
  intro entity retired
  refine ⟨EntityBooks.onDeleted_retires retired,?_⟩
  exact (valid.entities.minted (EntityBooks.onDeleted_retired retired)).2

theorem repaired_valid (slots : List (Int × Int)) : Valid (.after op stack
    ({ w with entities := w.entities.repairReconcile slots }.pruneDead)) := by
  have moved : Inv { w with entities := w.entities.repairReconcile slots } (tasksOf stack) :=
    Inv.books valid (.refl _) (EntityBooks.repairReconcile_evolves _ _) rfl (.refl _) rfl rfl rfl
  exact removeWhere_valid op moved _ fun entered => trivial

/-- The host frame takes the whole pending list into flight. -/
theorem advanceFrame_valid : Valid (.after op stack w.advanceFrame) := by
  unfold World.advanceFrame
  split
  · exact valid
  next idle =>
    have none := valid.idle (by simpa using idle)
    apply retireAll_valid op stack w.registry.pending
    rw [none] at valid ⊢
    have shifts : Shifts w [] { w with
        transition := true
        registry := { w.registry with frame := saturatingSucc w.registry.frame, pending := [] } }
        w.queued := {
      clients := .refl _
      entities := .refl _
      nextToken := Nat.le_refl _
      held := .refl _
      closed := fun x _ p _ y inside _ => inside
      moved := ⟨[],by simp,by simp [World.held,Registry.records],by simp [World.queued]⟩
      queued := .nil
      painted := fun entry member => member
      leads := fun entry _ _ x leads _ => .inl leads
      keeps := by
        intro entry member live before
        obtain ⟨x,inside,token⟩ := mem_outstanding.mp before
        exact mem_outstanding.mpr ⟨x,.inr (by simpa using inside),token⟩ }
    exact valid.launch shifts ⟨rfl,by simp [After.holds],.inl rfl⟩ trivial (by simp)

theorem rehash_valid (leases : List Lease) :
    Inv (if leases.isPerm w.registry.leases then { w with registry := { w.registry with leases } }
      else w) (tasksOf stack) := by
  split
  next same =>
    have perm : leases.Perm w.registry.leases := List.isPerm_iff.mp same
    exact Inv.books valid (.refl _) (.refl _) rfl (perm.map _) rfl rfl rfl
  next => exact valid

end Starts

/-- A ready or active token wins its key, and nothing is pending there. -/
theorem Registry.state_leads {r : Registry} {token : Nat} {owner : String}
    (shows : r.state token owner = .ready ∨ r.state token owner = .active) :
    ∃ l, r.lookup token = some l ∧ r.winner l.key = some token ∧ r.pendingKey l.key = false := by
  unfold Registry.state at shows
  split at shows
  · simp at shows
  next l found =>
    split at shows
    · simp at shows
    next wins =>
      split at shows
      · simp at shows
      next clear =>
        simp only [Bool.or_eq_true,not_or,Bool.not_eq_true] at clear
        exact ⟨l,(Option.filter_eq_some_iff.mp found).1,not_not.mp wins,clear.1⟩

theorem paint_records (leases : List Lease) (token : Nat) (epoch : Option Nat) :
    (leases.map (fun other => if other.token = token then
      { other with activated := true, activatedIn := epoch } else other)).map Lease.toRecord =
      leases.map Lease.toRecord := by
  rw [List.map_map]
  refine List.map_congr_left fun l _ => ?_
  simp only [Function.comp_apply]
  split <;> rfl

theorem Leads.of_eq {records same : List Record} (equal : records = same) {x : Record}
    (leads : Leads records x) : Leads same x := equal ▸ leads

/-- The leader of a key goes on screen. -/
theorem Inv.paint {w : World} (valid : Inv w []) {x : Record} (leads : Leads w.held x)
    (live : w.keyLive x.key = true) :
    Inv { w with painted := (x.token,x.key) :: w.painted } [] := by
  have sound := valid.sound
  have mine : x ∈ w.known [] := mem_known.mpr (.inl leads.1)
  have identity : w.clients.idOf x.key.slot = some x.key.client ∧
      w.entities.idOf x.key.index = some x.key.entity := by
    simp only [World.keyLive,World.clientMatches,LiveTable.isLive,Bool.and_eq_true,beq_iff_eq,
      EntityBooks.live_iff valid.entities] at live
    exact ⟨live.1.2,live.2⟩
  refine ⟨valid.clients,valid.entities,⟨sound.exclusive,sound.coherent,sound.fresh,
    sound.onlyChild,sound.distinct,sound.queuedDistinct,sound.linked,sound.owner,sound.pool⟩,
    ⟨?_,?_,?_⟩,valid.guarded,by simp,by simp⟩
  · intro entry member
    rcases List.mem_cons.mp member with rfl | old
    · exact ⟨sound.fresh x mine,(valid.entities.minted identity.2).2,
        (valid.clients.minted identity.1).2⟩
    · exact valid.painted.minted entry old
  · intro entry member y known same
    rcases List.mem_cons.mp member with rfl | old
    · rw [sound.coherent y known x mine same]
    · exact valid.painted.key entry old y known same
  · intro entry member alive
    rcases List.mem_cons.mp member with rfl | old
    · exact .inl ⟨x,leads,rfl⟩
    · exact valid.painted.shown entry old alive

theorem World.state_ready {w : World} {owner : String} {token : Nat}
    (ready : w.state owner token = .ready) :
    w.registry.state token owner = .ready ∧ (w.registry.lookup token).any w.live = true := by
  unfold World.state at ready
  split at ready
  next alive => exact ⟨ready,alive⟩
  next => simp at ready

theorem activate_inv {w : World} {stack : List (Op × Frame)} (valid : Inv w (tasksOf stack))
    (owner : String) (token : Nat) (epoch : Option Nat) :
    Inv (w.activate owner token epoch).1 (tasksOf stack) := by
  unfold World.activate
  split
  · exact valid
  next ready =>
    simp only [Bool.or_eq_true,decide_eq_true_eq,not_or,Bool.not_eq_true,ne_eq,not_not] at ready
    split
    · exact valid
    next l found =>
      split
      · exact valid
      next =>
        have none := valid.idle ready.1
        rw [none] at valid ⊢
        obtain ⟨state,alive⟩ := World.state_ready ready.2
        obtain ⟨lease,lookup,wins,_⟩ := Registry.state_leads (.inl state)
        obtain rfl : l = lease := by simpa using found.symm.trans lookup
        obtain ⟨x,key,named,leads⟩ :=
          (w.registry.winner_eq_some_iff valid.sound.distinct _ _).mp wins
        have live : w.keyLive x.key = true := by
          simp only [found,Option.any_some,World.live,World.identityLive,Bool.and_eq_true] at alive
          rw [key]
          exact alive.1
        have records := paint_records w.registry.leases token epoch
        have painted : Inv { w with registry := { w.registry with
            leases := w.registry.leases.map (fun other => if other.token = token then
              { other with activated := true, activatedIn := epoch } else other) } } [] :=
          valid.books (.refl _) (.refl _) rfl (.of_eq records) rfl rfl rfl
        have shown := painted.paint (Leads.of_eq records.symm leads) live
        rwa [key,named] at shown

end S2Script.SurfaceLeases
