import S2Script.SurfaceLeasesReservation

/-! What the surface registry guarantees in every configuration it can reach, with any
operations nested inside its engine calls and any of those calls failing. -/
namespace S2Script.SurfaceLeases

open Liveness Reentrant

theorem start_valid (op : Op) (w : World) (stack : List (Op × Frame)) (valid : Valid ⟨w,stack⟩) :
    Valid (.after op stack (process.start op w)) := by
  replace valid : Inv w (tasksOf stack) := valid
  cases op with
  | reserve owner key priority policy adapters parent =>
    exact reserve_valid _ valid owner rfl priority policy adapters parent
  | activate owner token epoch => exact activate_inv valid owner token epoch
  | release owner token => exact release_valid _ valid owner token
  | clearLegacy owner key adapters => exact clearLegacy_valid _ valid owner _ adapters
  | sweepOwner owner => exact removeWhere_valid _ valid _ fun _ => trivial
  | advanceFrame => exact advanceFrame_valid _ valid
  | clientEnd slot client => exact clientEnd_valid _ valid slot client
  | clientConnect slot => exact clientConnect_valid valid slot
  | created index serial => exact created_valid _ valid index serial
  | spawned index serial => exact spawned_valid _ valid index serial
  | deleted index serial => exact deleted_valid _ valid index serial
  | repaired slots => exact repaired_valid _ valid slots
  | load plugin => exact valid.books (.refl _) (.refl _) rfl (.refl _) rfl rfl rfl
  | unload plugin => exact valid.books (.refl _) (.refl _) rfl (.refl _) rfl rfl rfl
  | gamePackage calls => exact valid.books (.refl _) (.refl _) rfl (.refl _) rfl rfl rfl
  | rehash leases => exact rehash_valid valid leases

/-- The registry after any operations, sweeps and answers. -/
def run (events : List (Event Op (Except String Unit))) : Config World Op Frame :=
  process.execute events ⟨initial,[]⟩

theorem run_valid (events : List (Event Op (Except String Unit))) : Valid (run events) := by
  have first : Valid ⟨initial,[]⟩ := initial_inv
  exact process.execute_invariant start_valid resume_valid first events

/-- The lanes `occupancy` lists are lanes of the records held and queued. -/
theorem mem_occupancy {w : World} {p : Place} (member : p ∈ w.registry.occupancy)
    (away : List Record) : ∃ x ∈ w.known away, p ∈ x.places := by
  rcases List.mem_append.mp member with leased | pending
  · obtain ⟨l,listed,rfl⟩ := List.mem_map.mp leased
    exact ⟨l.toRecord,mem_known.mpr (.inl (w.registry.mem_records listed)),List.mem_cons_self⟩
  · obtain ⟨l,listed,inside⟩ := List.mem_flatMap.mp pending
    exact ⟨l.toRecord,mem_known.mpr (.inr (.inl (List.mem_map_of_mem listed))),inside⟩

/-- Lane exclusivity: whatever fails and whatever nests, the lanes taken by leases, pending
retirements and the parents these recorded agree within a group, and an owned lane has one
token. -/
theorem lanes_exclusive (events : List (Event Op (Except String Unit))) :
    let occupancy := (run events).state.registry.occupancy
    (∀ p ∈ occupancy, ∀ q ∈ occupancy, p.key.sameGroup q.key = true →
      p.capacity = q.capacity ∧ (p.policy = .focus ↔ q.policy = .focus)) ∧
    (∀ p ∈ occupancy, p.policy ≠ .focus → p.key.lane < p.capacity) ∧
    (∀ p ∈ occupancy, ∀ q ∈ occupancy, p.policy ≠ .focus → p.key = q.key → p.token = q.token) := by
  intro occupancy
  have exclusive := (run_valid events).sound.exclusive
  refine ⟨?_,?_,?_⟩
  · intro p one q two same
    obtain ⟨x,known,inside⟩ := mem_occupancy one _
    obtain ⟨y,known',inside'⟩ := mem_occupancy two _
    exact exclusive.agree known known' inside inside' same
  · intro p one owned
    obtain ⟨x,known,inside⟩ := mem_occupancy one _
    exact exclusive.lane known inside owned
  · intro p one q two owned same
    obtain ⟨x,known,inside⟩ := mem_occupancy one _
    obtain ⟨y,known',inside'⟩ := mem_occupancy two _
    exact exclusive.token known known' inside inside' owned same

/-- Linked leases and bounds: a live child has its parent live beside it, a parent has one
child, pending tokens are distinct, and the registry stays within its limits. -/
theorem links_and_bounds (events : List (Event Op (Except String Unit))) :
    let registry := (run events).state.registry
    (∀ l ∈ registry.leases, ∀ p, l.parent = some p → ∃ parent ∈ registry.leases,
      parent.token = p.token ∧ parent.owner = l.owner ∧ parent.generation = l.generation ∧
      parent.key.index = l.key.index ∧ parent.key.entity = l.key.entity ∧
      parent.key.slot = l.key.slot ∧ parent.key.client = l.key.client) ∧
    (∀ l ∈ registry.leases ++ registry.pending, ∀ m ∈ registry.leases ++ registry.pending,
      ∀ p q, l.parent = some p → m.parent = some q → p.token = q.token → l.token = m.token) ∧
    (registry.pending.map (·.token)).Nodup ∧
    (∀ owner, registry.leases.countP (fun l => l.owner = owner) ≤ 1024) ∧
    registry.leases.length + registry.pending.length ≤ 16384 := by
  intro registry
  have sound := (run_valid events).sound
  refine ⟨?_,?_,?_,?_,?_⟩
  · intro l listed p linked
    obtain ⟨y,held,place,rest⟩ := (sound.linked l.toRecord (registry.mem_records listed) p linked).live
    obtain ⟨parent,inside,rfl⟩ := List.mem_map.mp held
    exact ⟨parent,inside,congrArg Place.token place,rest⟩
  · have known : ∀ l ∈ registry.leases ++ registry.pending,
        l.toRecord ∈ (run events).state.known (flying (tasksOf (run events).stack)) := by
      intro l member
      rw [mem_known]
      rcases List.mem_append.mp member with leased | pending
      · exact .inl (List.mem_map_of_mem leased)
      · exact .inr (.inl (List.mem_map_of_mem pending))
    intro l one m two p q first second same
    exact sound.onlyChild _ (known l one) _ (known m two) p q first second same
  · have distinct := sound.queuedDistinct
    simpa [Distinct,tokens,World.queued,Function.comp_def] using distinct
  · intro owner
    have bound := sound.owner owner
    simpa [World.held,Registry.records,List.countP_map,Function.comp_def] using bound
  · have pool := sound.pool
    have count : (run events).state.queued.length ≤
        (outstanding (run events).state.queued (flying (tasksOf (run events).stack))).card := by
      have card := List.toFinset_card_of_nodup sound.queuedDistinct
      rw [List.length_map] at card
      rw [← card]
      refine Finset.card_le_card fun token member => ?_
      obtain ⟨x,queued,same⟩ := List.mem_map.mp (List.mem_toFinset.mp member)
      exact mem_outstanding.mpr ⟨x,.inl queued,same⟩
    simp only [World.held,World.queued,Registry.records,List.length_map] at pool count
    exact (Nat.add_le_add_left count _).trans pool

/-- A token whose retirement some operation called out for, or has still to make. -/
def retiring (stack : List (Op × Frame)) (token : Nat) : Prop :=
  ∃ call ∈ stack, ∃ l ∈ call.2.lease :: call.2.rest, l.token = token

theorem mem_flying_tasks {stack : List (Op × Frame)} {x : Record}
    (member : x ∈ flying (tasksOf stack)) : retiring stack x.token := by
  obtain ⟨t,inside,listed⟩ := List.mem_flatMap.mp member
  obtain ⟨call,present,rfl⟩ := List.mem_map.mp inside
  have mapped : x ∈ (call.2.lease :: call.2.rest).map Lease.toRecord := listed
  obtain ⟨l,retired,rfl⟩ := List.mem_map.mp mapped
  exact ⟨call,present,l,retired,rfl⟩

theorem Painted.accounted {w : World} {stack : List (Op × Frame)}
    (valid : Inv w (tasksOf stack)) {entry : Nat × Key} (member : entry ∈ w.painted)
    (live : w.keyLive entry.2 = true) :
    w.registry.winner entry.2 = some entry.1 ∨
      (∃ l ∈ w.registry.pending, l.token = entry.1 ∧ l.key = entry.2) ∨ retiring stack entry.1 := by
  rcases valid.painted.shown entry member live with ⟨x,leads,token⟩ | outstanding
  · have key := valid.painted.key entry member x (mem_known.mpr (.inl leads.1)) token
    exact .inl ((w.registry.winner_eq_some_iff valid.sound.distinct _ _).mpr ⟨x,key,token,leads⟩)
  · obtain ⟨x,queued | away,token⟩ := mem_outstanding.mp outstanding
    · have key := valid.painted.key entry member x (mem_known.mpr (.inr (.inl queued))) token
      obtain ⟨l,listed,rfl⟩ := List.mem_map.mp queued
      exact .inr (.inl ⟨l,listed,token,key⟩)
    · exact .inr (.inr (token ▸ mem_flying_tasks away))

/-- Presentation exclusivity: on a live key a painted token wins, is pending, or is being
retired by an operation still inside an engine call; outside a transition the last is ruled
out, and what reports ready or active then is alone on screen. -/
theorem presentation_exclusive (events : List (Event Op (Except String Unit))) :
    let config := run events
    let w := config.state
    (∀ token key, (token,key) ∈ w.painted → w.keyLive key = true →
      w.registry.winner key = some token ∨ (∃ l ∈ w.registry.pending, l.token = token) ∨
        retiring config.stack token) ∧
    (w.transition = false → config.stack = []) ∧
    (w.transition = false → ∀ token owner l, w.registry.lookup token = some l →
      w.keyLive l.key = true →
      w.registry.state token owner = .ready ∨ w.registry.state token owner = .active →
      ∀ other, (other,l.key) ∈ w.painted → other = token) := by
  intro config w
  have valid : Inv w (tasksOf config.stack) := run_valid events
  have idle : w.transition = false → config.stack = [] := by
    intro free
    have none := valid.idle free
    simpa [tasksOf] using none
  refine ⟨?_,idle,?_⟩
  · intro token key member live
    rcases Painted.accounted valid member live with wins | ⟨l,listed,same,_⟩ | away
    · exact .inl wins
    · exact .inr (.inl ⟨l,listed,same⟩)
    · exact .inr (.inr away)
  · intro free token owner l found live shows other member
    obtain ⟨lease,lookup,wins,clear⟩ := Registry.state_leads shows
    obtain rfl : l = lease := by simpa using found.symm.trans lookup
    rcases Painted.accounted valid member live with leader | ⟨m,listed,_,key⟩ | ⟨call,inside,_⟩
    · exact (Option.some.inj (wins.symm.trans leader)).symm
    · have pending : w.registry.pendingKey l.key = true := by
        rw [Registry.pendingKey,List.any_eq_true]
        exact ⟨m,listed,by simp [key]⟩
      simp [pending] at clear
    · simp [idle free] at inside

/-- One lease, painted, with a hide effect; then released. -/
def releasing : List (Event Op (Except String Unit)) :=
  let key : Key := ⟨"menu",1,1,0,1,0⟩
  [.start (.load "p"),.start (.clientConnect 0),.start (.created 1 1),
    .start (.gamePackage ⟨some "g",fun _ _ => some ⟨["int"],true,true,false⟩,fun _ _ => ""⟩),
    .start (.reserve "p" key 0 .focus [⟨none,some ⟨"hide",[]⟩⟩] none),
    .start (.activate "p" 1 none),.start (.release "p" 1)]

/-- While the hide call of a release is out, the token is on screen but no longer wins its
key, and is not pending either. -/
theorem releasing_unaccounted :
    let w := (run releasing).state
    (1,⟨"menu",1,1,0,1,0⟩) ∈ w.painted ∧ w.keyLive ⟨"menu",1,1,0,1,0⟩ = true ∧
      w.registry.winner ⟨"menu",1,1,0,1,0⟩ ≠ some 1 ∧ ¬∃ l ∈ w.registry.pending, l.token = 1 := by
  decide

end S2Script.SurfaceLeases
