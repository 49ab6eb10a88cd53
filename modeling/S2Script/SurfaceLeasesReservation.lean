import S2Script.SurfaceLeasesOperations

/-! Reservations and legacy clears: what their checks establish about the lane they
take, before the first engine call. -/
namespace S2Script.SurfaceLeases

open Liveness Reentrant

theorem require_ok {condition : Bool} {code message : String} {answer : Unit}
    (passed : require condition code message = .ok answer) : condition = true := by
  unfold require at passed
  split at passed
  next holds => exact holds
  next => simp at passed

/-- One step of a check peels off. -/
theorem bind_ok {α β : Type} {first : Except Failure α} {next : α → Except Failure β} {answer : β}
    (passed : (first >>= next) = .ok answer) :
    ∃ middle, first = .ok middle ∧ next middle = .ok answer := by
  cases first with
  | error failure => simp [bind,Except.bind] at passed
  | ok middle => exact ⟨middle,rfl,passed⟩

/-- How a reservation got its lane. -/
inductive Chosen (r : Registry) (key : Key) (priority : Int) (policy : Policy) (capacity : Nat) :
    Nat → Option Nat → Prop where
  | focus (focus : policy = .focus) (clear : r.pendingKey key = false) :
      Chosen r key priority policy capacity 0 ((winnerOf r.records key).bind
        (fun w => if w.priority ≤ priority then some w.token else none))
  | free (lane : Nat) (owned : policy ≠ .focus) (bound : lane < capacity)
      (free : ∀ p ∈ r.occupancy, p.key.sameGroup key = true → p.key.lane ≠ lane) :
      Chosen r key priority policy capacity lane none
  | replaces (old : Lease) (legacy : policy = .legacy) (held : old ∈ r.leases)
      (group : old.key.sameGroup key = true) (oldLegacy : old.policy = .legacy)
      (clear : r.pendingKey old.key = false) :
      Chosen r key priority policy capacity old.key.lane (some old.token)

theorem chooseLane_ok {r : Registry} {owner : String} {key : Key} {priority : Int}
    {policy : Policy} {capacity lane : Nat} {old : Option Nat}
    (chosen : World.chooseLane r owner key priority policy capacity = .ok (lane,old)) :
    r.leases.countP (fun l => l.owner = owner) < 1024 ∧
    r.leases.length + r.pending.length < 16384 ∧
    (∀ p ∈ r.occupancy, p.key.sameGroup key = true →
      p.capacity = capacity ∧ (p.policy = .focus ↔ policy = .focus)) ∧
    Chosen r key priority policy capacity lane old := by
  unfold World.chooseLane at chosen
  obtain ⟨_,limit,chosen⟩ := bind_ok chosen
  extract_lets group replaceable at chosen
  obtain ⟨_,agrees,chosen⟩ := bind_ok chosen
  have limit := require_ok limit
  have agrees := require_ok agrees
  simp only [Bool.and_eq_true,decide_eq_true_eq] at limit
  refine ⟨limit.1,limit.2,?_,?_⟩
  · intro p member same
    have inside : p ∈ group := List.mem_filter.mpr ⟨member,same⟩
    simpa using List.all_eq_true.mp agrees p inside
  · split at chosen
    next focus =>
      obtain ⟨_,clear,chosen⟩ := bind_ok chosen
      have clear := require_ok clear
      simp only [Except.ok.injEq,Prod.mk.injEq] at chosen
      obtain ⟨rfl,rfl⟩ := chosen
      exact .focus focus (by simpa using clear)
    next owned =>
      split at chosen
      next free found =>
        simp only [Except.ok.injEq,Prod.mk.injEq] at chosen
        obtain ⟨rfl,rfl⟩ := chosen
        have apart := List.find?_some found
        refine .free free owned (by simpa using List.mem_of_find?_eq_some found) ?_
        intro p member same
        simpa using List.all_eq_true.mp apart p (List.mem_filter.mpr ⟨member,same⟩)
      next =>
        split at chosen
        next victim found =>
          simp only [Except.ok.injEq,Prod.mk.injEq] at chosen
          obtain ⟨rfl,rfl⟩ := chosen
          split at found
          next legacy =>
            have member := List.argmin_mem found
            obtain ⟨held,facts⟩ := List.mem_filter.mp member
            simp only [Bool.and_eq_true,decide_eq_true_eq,Bool.not_eq_true'] at facts
            exact .replaces victim legacy held facts.1.1 facts.1.2 facts.2
          next => simp at found
        next => simp at chosen

/-- What a linked reservation found in its parent. -/
structure Adopted (w : World) (owner : String) (generation : Nat) (key : Key) (policy : Policy)
    (p : Parent) : Prop where
  focus : policy = .focus
  occupancy : p.policy ≠ .focus
  childless : ∀ x ∈ w.known [], ∀ q, x.parent = some q → q.token ≠ p.token
  held : ∃ y ∈ w.held, y.token = p.token ∧ y.place = p.place ∧ y.owner = owner ∧
    y.generation = generation ∧ y.key.index = key.index ∧ y.key.entity = key.entity ∧
    y.key.slot = key.slot ∧ y.key.client = key.client

theorem checkParent_ok {w : World} {owner : String} {generation : Nat} {key : Key}
    {policy : Policy} {token : Nat} {p : Parent}
    (passed : w.checkParent owner generation key policy token = .ok p) :
    Adopted w owner generation key policy p := by
  unfold World.checkParent at passed
  split at passed
  · simp at passed
  next y found =>
    obtain ⟨lookup,own⟩ := Option.filter_eq_some_iff.mp found
    obtain ⟨inside,named⟩ := w.registry.lookup_some lookup
    obtain ⟨_,fits,passed⟩ := bind_ok passed
    obtain ⟨_,childless,passed⟩ := bind_ok passed
    have fits := require_ok fits
    have childless := require_ok childless
    obtain rfl := Except.ok.inj passed
    simp only [Bool.and_eq_true,decide_eq_true_eq,ne_eq] at fits own
    obtain ⟨⟨⟨⟨⟨⟨⟨focus,occupancy⟩,index⟩,entity⟩,slot⟩,client⟩,_⟩,_⟩ := fits
    refine ⟨focus,occupancy,?_,⟨y.toRecord,w.registry.mem_records inside,named,
      ?_,own.1.1,own.1.2,index,entity,slot,client⟩⟩
    · intro x member q linked
      have none : ∀ l ∈ w.registry.leases ++ w.registry.pending, l.toRecord = x →
          q.token ≠ token := by
        rintro l listed rfl
        have alone := List.all_eq_true.mp childless l listed
        simpa [linked] using alone
      rcases mem_known.mp member with held | queued | absent
      · obtain ⟨l,listed,equal⟩ := List.mem_map.mp held
        exact none l (List.mem_append_left _ listed) equal
      · obtain ⟨l,listed,equal⟩ := List.mem_map.mp queued
        exact none l (List.mem_append_right _ listed) equal
      · simp at absent
    · simp [Record.place,Parent.place,named]

/-- What a reservation's checks settle, and the token it has to retire. -/
structure Checked (w : World) (r : Reservation) (old : Option Nat) : Prop where
  owner : w.registry.leases.countP (fun l => l.owner = r.owner) < 1024
  pool : w.registry.leases.length + w.registry.pending.length < 16384
  compatible : ∀ p ∈ w.registry.occupancy, p.key.sameGroup r.key = true →
    p.capacity = r.capacity ∧ (p.policy = .focus ↔ r.policy = .focus)
  chosen : Chosen w.registry { r.key with lane := 0 } r.priority r.policy r.capacity r.key.lane old
  adopted : ∀ p, r.parent = some p → Adopted w r.owner r.generation r.key r.policy p

theorem checkReservation_ok {w : World} {owner : String} {key : Key} {priority : Int}
    {policy : Policy} {adapters : List Adapter} {parentToken : Option Nat} {r : Reservation}
    {old : Option Nat} (base : key.lane = 0)
    (passed : w.checkReservation owner key priority policy adapters parentToken = .ok (r,old)) :
    Checked w r old ∧ r.policy = policy := by
  unfold World.checkReservation at passed
  obtain ⟨_,_,passed⟩ := bind_ok passed
  obtain ⟨_,_,passed⟩ := bind_ok passed
  obtain ⟨_,_,passed⟩ := bind_ok passed
  obtain ⟨_,_,passed⟩ := bind_ok passed
  obtain ⟨_,_,passed⟩ := bind_ok passed
  have same : ({ key with lane := 0 } : Key) = key := by
    cases key
    simp_all
  -- the parent is settled before the lane, in both branches by the same continuation
  have settled : ∀ parent, (∀ p, parent = some p → Adopted w owner (w.pluginGeneration owner) key policy p) →
      ((World.chooseLane w.registry owner key priority policy adapters.length).bind fun chosen =>
        .ok ((⟨owner,w.pluginGeneration owner,{ key with lane := chosen.1 },priority,w.calls.owner,
          adapters.getD chosen.1 {},policy,adapters.length,parent⟩ : Reservation),chosen.2)) =
        (.ok (r,old) : Except Failure (Reservation × Option Nat)) →
      Checked w r old ∧ r.policy = policy := by
    intro parent adopted passed
    obtain ⟨⟨lane,victim⟩,chosen,passed⟩ := bind_ok passed
    simp only [Except.ok.injEq,Prod.mk.injEq] at passed
    obtain ⟨rfl,rfl⟩ := passed
    obtain ⟨owners,pool,compatible,chosen⟩ := chooseLane_ok chosen
    refine ⟨⟨owners,pool,compatible,by simpa [same] using chosen,?_⟩,rfl⟩
    intro p linked
    have found := adopted p linked
    exact ⟨found.focus,found.occupancy,found.childless,found.held⟩
  cases parentToken with
  | none => exact settled none (by simp) passed
  | some token =>
    obtain ⟨parent,parented,passed⟩ := bind_ok passed
    refine settled parent ?_ passed
    rintro p rfl
    cases checked : w.checkParent owner (w.pluginGeneration owner) key policy token with
    | error failure => simp [checked,Except.map] at parented
    | ok q =>
      obtain rfl : q = p := by simpa [checked,Except.map] using parented
      exact checkParent_ok checked

/-- The registry's occupancy lists every lane on record: the parent of a held child is
held itself. -/
theorem Sound.places_occupied {w : World} (sound : Sound w []) {x : Record} {p : Place}
    (known : x ∈ w.known []) (inside : p ∈ x.places) : p ∈ w.registry.occupancy := by
  have taken {y : Record} (held : y ∈ w.held) : y.place ∈ w.registry.occupancy := by
    obtain ⟨l,listed,rfl⟩ := List.mem_map.mp held
    exact List.mem_append_left _ (List.mem_map_of_mem listed)
  rcases mem_known.mp known with held | queued | absent
  · simp only [Record.places,List.mem_cons,Option.mem_toList,Option.map_eq_some_iff] at inside
    rcases inside with rfl | ⟨q,linked,rfl⟩
    · exact taken held
    · obtain ⟨y,present,place,_⟩ := (sound.linked x held q linked).live
      exact place ▸ taken present
  · obtain ⟨l,listed,rfl⟩ := List.mem_map.mp queued
    exact List.mem_append_right _ (List.mem_flatMap.mpr ⟨l,listed,inside⟩)
  · simp at absent

theorem outstanding_card_le (queued : List Record) : (outstanding queued []).card ≤ queued.length := by
  have bound := List.toFinset_card_le (tokens (queued ++ []))
  simpa [outstanding,tokens] using bound

/-- No pending record of a key means none of its tokens is queued. -/
theorem queued_places {w : World} {key : Key} (clear : w.registry.pendingKey key = false)
    {x : Record} (queued : x ∈ w.queued) {p : Place} (inside : p ∈ x.places) : p.key ≠ key := by
  obtain ⟨l,listed,rfl⟩ := List.mem_map.mp queued
  simp only [Registry.pendingKey,List.any_eq_false,Bool.or_eq_true,decide_eq_true_eq,not_or]
    at clear
  obtain ⟨own,parent⟩ := clear l listed
  simp only [Record.places,List.mem_cons,Option.mem_toList,Option.map_eq_some_iff] at inside
  rcases inside with rfl | ⟨q,linked,rfl⟩
  · exact own
  · intro same
    replace same : q.key = key := same
    exact parent (by simp [linked,same])

section Checked

variable {w : World} {r : Reservation} {old : Option Nat} (sound : Sound w [])
  (checked : Checked w r old)
include sound checked

theorem Checked.agrees : ∀ x ∈ w.known [], ∀ p ∈ x.places, p.key.sameGroup r.key = true →
    p.capacity = r.capacity ∧ (p.policy = .focus ↔ r.policy = .focus) :=
  fun _ known p inside => checked.compatible p (sound.places_occupied known inside)

theorem Checked.parent {p : Parent} (linked : r.parent = some p) :
    r.policy = .focus ∧ p.policy ≠ .focus ∧
    (∀ x ∈ w.known [], ∀ q, x.parent = some q → q.token ≠ p.token) ∧
    ∀ x ∈ w.known [], x.token = p.token → x.place = p.place ∧ x.owner = r.owner ∧
      x.generation = r.generation ∧ x.key.index = r.key.index ∧ x.key.entity = r.key.entity ∧
      x.key.slot = r.key.slot ∧ x.key.client = r.key.client := by
  have adopted := checked.adopted p linked
  refine ⟨adopted.focus,adopted.occupancy,adopted.childless,?_⟩
  intro x known same
  obtain ⟨y,held,named,rest⟩ := adopted.held
  rw [sound.coherent x known y (mem_known.mpr (.inl held)) (same.trans named.symm)]
  exact rest

omit sound in
theorem Checked.room : w.held.length + (outstanding w.queued []).card < 16384 := by
  have few := outstanding_card_le w.queued
  have pool := checked.pool
  simp only [World.held,World.queued,Registry.records,List.length_map] at few ⊢
  omega

omit sound in
theorem Checked.owners : w.held.countP (fun x => x.owner = r.owner) < 1024 := by
  have owner := checked.owner
  simpa [World.held,Registry.records,List.countP_map,Function.comp_def] using owner

/-- The only owned lane a reservation can share is the one it replaces. -/
theorem Checked.sharing {x : Record} {p : Place} (known : x ∈ w.known []) (inside : p ∈ x.places)
    (same : p.key = r.key) (owned : r.policy ≠ .focus) :
    ∃ l ∈ w.registry.leases, old = some l.token ∧ l.key = r.key ∧ l.policy ≠ .focus ∧
      p.token = l.token ∧ w.registry.pendingKey r.key = false := by
  have group : p.key.sameGroup r.key = true := same ▸ Key.sameGroup_self _
  have chosen := checked.chosen
  generalize lane_eq : r.key.lane = lane at chosen
  cases chosen with
  | focus focus => exact absurd focus owned
  | free lane _ _ free =>
    have occupied := sound.places_occupied known inside
    exact absurd ((congrArg Key.lane same).trans lane_eq) (free p occupied group)
  | replaces l _ held near legacy clear =>
    have key : l.key = r.key := by
      simp only [Key.sameGroup,Bool.and_eq_true,beq_iff_eq] at near
      obtain ⟨⟨⟨⟨surface,index⟩,entity⟩,slot⟩,client⟩ := near
      cases lk : l.key
      cases rk : r.key
      simp_all
    have notFocus : l.policy ≠ .focus := by simp [legacy]
    have mine : l.toRecord ∈ w.known [] := mem_known.mpr (.inl (w.registry.mem_records held))
    have token : l.token = p.token := sound.exclusive.token mine known
      (List.mem_cons_self : l.toRecord.place ∈ l.toRecord.places) inside notFocus
      (key.trans same.symm)
    exact ⟨l,held,rfl,key,notFocus,token.symm,key ▸ clear⟩

theorem Checked.lane (owned : r.policy ≠ .focus) : r.key.lane < r.capacity := by
  have chosen := checked.chosen
  generalize lane_eq : r.key.lane = lane at chosen
  cases chosen with
  | focus focus => exact absurd focus owned
  | free _ _ bound => exact bound
  | replaces l _ held near legacy _ =>
    have known : l.toRecord ∈ w.known [] := mem_known.mpr (.inl (w.registry.mem_records held))
    have own : l.toRecord.place ∈ l.toRecord.places := List.mem_cons_self
    have capacity : l.capacity = r.capacity :=
      (checked.agrees sound l.toRecord known l.toRecord.place own near).1
    have bound : l.key.lane < l.capacity := sound.exclusive.lane known own (by simp [Record.place,legacy])
    omega

end Checked

theorem known_snoc {w : World} {records : List Record} {n x : Record}
    (member : x ∈ w.known (records ++ [n])) : x = n ∨ x ∈ w.known records := by
  simp only [mem_known,List.mem_append,List.mem_singleton] at member ⊢
  tauto

theorem outstanding_snoc_card (queued records : List Record) (n : Record) :
    (outstanding queued (records ++ [n])).card ≤ (outstanding queued records).card + 1 := by
  have more : outstanding queued (records ++ [n]) ⊆
      insert n.token (outstanding queued records) := by
    intro t member
    rw [Finset.mem_insert]
    rcases outstanding_append.mp member with old | new
    · exact .inr old
    · exact .inl (by simpa [tokens] using new)
  exact (Finset.card_le_card more).trans (Finset.card_insert_le _ _)

section Outgoing

variable {w : World} {r : Reservation}

/-- Nothing to retire: the lease may go in at once. -/
theorem Checked.ready (valid : Inv w []) (checked : Checked w r none) : Ready w r := by
  have sound : Sound w [] := valid.sound
  refine ⟨checked.agrees sound,?_,checked.lane sound,fun p linked => checked.parent sound linked,
    checked.owners,checked.room,?_⟩
  · intro owned x known p inside same
    obtain ⟨l,_,replaced,_⟩ := checked.sharing sound known inside same owned
    simp at replaced
  · intro entry member same live
    rcases valid.painted.shown entry member live with ⟨x,leads,token⟩ | pending
    · have known : x ∈ w.known [] := mem_known.mpr (.inl leads.1)
      have key : x.key = r.key := (valid.painted.key entry member x known token).trans same
      by_cases focus : r.policy = .focus
      · refine .inr ⟨x,leads,token,?_⟩
        have chosen := checked.chosen
        generalize lane_eq : r.key.lane = lane at chosen
        generalize victim_eq : (none : Option Nat) = victim at chosen
        cases chosen with
        | focus =>
          have base : ({ r.key with lane := 0 } : Key) = r.key := by rw [← lane_eq]
          have wins := (winnerOf_eq_some_iff sound.distinct r.key x).mpr ⟨key,leads⟩
          have winner : winnerOf w.registry.records r.key = some x := wins
          rw [base,winner] at victim_eq
          simp only [Option.bind_some] at victim_eq
          by_contra below
          simp [not_lt.mp below] at victim_eq
        | free _ owned => exact absurd focus owned
        | replaces => simp at victim_eq
      · obtain ⟨l,_,replaced,_⟩ :=
          checked.sharing sound known (List.mem_cons_self : x.place ∈ x.places) key focus
        simp at replaced
    · exact .inl pending

/-- A reservation that retires records of the registry as it was. -/
theorem Checked.reserving {w' : World} {old : Option Nat} {own : List Record}
    (sound : Sound w []) (checked : Checked w r old)
    (known : ∀ x ∈ w'.known own, x ∈ w.known [])
    (vacant : r.policy ≠ .focus → ∀ x ∈ w'.known [], ∀ p ∈ x.places, p.key ≠ r.key)
    (held : w'.held.Subperm w.held) (queued : w'.queued = w.queued)
    (unpainted : ∀ entry ∈ w'.painted, entry.2 = r.key → w'.keyLive entry.2 = true →
      entry.1 ∈ outstanding w'.queued own) : Reserving w' [] own none r where
  compatible x member := checked.agrees sound x (known x member)
  vacant owned _ := vacant owned
  lane := checked.lane sound
  parent p linked := by
    obtain ⟨focus,occupancy,childless,same⟩ := checked.parent sound linked
    exact ⟨focus,occupancy,fun x member => childless x (known x member),
      fun x member => same x (known x member)⟩
  owner := Nat.lt_of_le_of_lt (held.countP_le _) checked.owners
  pool _ := by
    rw [queued]
    exact Nat.lt_of_le_of_lt (Nat.add_le_add_right held.length_le _) checked.room
  unpainted := unpainted

/-- A focus takeover: the winner stays held and is retired beside. -/
theorem takeover_inv (valid : Inv w []) {token : Nat} (checked : Checked w r (some token))
    (focus : r.policy = .focus) :
    Inv { w with transition := true, registry := (w.registry.suspend token).1 }
      [⟨(w.registry.suspend token).2.toList.map Lease.toRecord,none,.reserve r⟩] := by
  have sound : Sound w [] := valid.sound
  generalize world : ({ w with transition := true, registry := (w.registry.suspend token).1 } :
    World) = w'
  have held : w'.held = w.held := by
    subst world
    exact w.registry.suspend_records token
  have queued : w'.queued = w.queued := by
    subst world
    rfl
  have rest : w'.painted = w.painted ∧ w'.clients = w.clients ∧ w'.entities = w.entities ∧
      w'.nextToken = w.nextToken ∧ w'.transition = true := by
    subst world
    simp
  obtain ⟨painted,clients,entities,nextToken,taken⟩ := rest
  -- the checks name the winner of the key
  obtain ⟨x,key,leads,named⟩ : ∃ x, x.key = r.key ∧ Leads w.held x ∧ x.token = token := by
    have chosen := checked.chosen
    generalize lane_eq : r.key.lane = lane at chosen
    generalize victim_eq : some token = victim at chosen
    cases chosen with
    | focus =>
      have base : ({ r.key with lane := 0 } : Key) = r.key := by rw [← lane_eq]
      rw [base] at victim_eq
      obtain ⟨x,wins,above⟩ := Option.bind_eq_some_iff.mp victim_eq.symm
      obtain ⟨key,leads⟩ := (winnerOf_eq_some_iff sound.distinct r.key x).mp wins
      split at above
      · exact ⟨x,key,leads,by simpa using above⟩
      · simp at above
    | free => simp at victim_eq
    | replaces l legacy => simp [focus] at legacy
  have own : (w.registry.suspend token).2.toList.map Lease.toRecord = [x] := by
    obtain ⟨l,lookup,same⟩ := w.registry.lookup_record sound.distinct leads.1
    rw [named] at lookup
    have suspended : ∃ l', (w.registry.suspend token).2 = some l' := by
      simp [Registry.suspend,lookup]
    obtain ⟨l',suspended⟩ := suspended
    obtain ⟨inside,equal⟩ := w.registry.suspended_record suspended
    simp [suspended,sound.distinct.eq_of_token inside leads.1 (equal.trans named.symm)]
  rw [own]
  have known : ∀ y ∈ w'.known [x], y ∈ w.known [] := by
    intro y member
    simp only [mem_known,held,queued,List.mem_singleton] at member ⊢
    rcases member with old | old | rfl
    · exact .inl old
    · exact .inr (.inl old)
    · exact .inl leads.1
  have alive (k : Key) : w'.keyLive k = w.keyLive k := by
    simp [World.keyLive,World.clientMatches,clients,entities]
  have shows {entry : Nat × Key} (member : entry ∈ w.painted) (live : w.keyLive entry.2 = true) :
      (∃ y, Leads w.held y ∧ y.token = entry.1) ∨ entry.1 ∈ outstanding w'.queued [x] := by
    rcases valid.painted.shown entry member live with leader | pending
    · exact .inl leader
    · obtain ⟨y,inside,same⟩ := mem_outstanding.mp pending
      have waiting : y ∈ w'.queued := by simpa [queued,flying] using inside
      exact .inr (mem_outstanding.mpr ⟨y,.inl waiting,same⟩)
  refine ⟨clients ▸ valid.clients,entities ▸ valid.entities,?_,?_,
    ⟨taken,by simp [After.holds],.inl rfl⟩,by simp [After.Justified],?_⟩
  · refine ⟨sound.exclusive.mono known,fun y one z two => sound.coherent y (known y one) z (known z two),
      ?_,fun y one z two => sound.onlyChild y (known y one) z (known z two),?_,?_,?_,?_,?_⟩
    · intro y member
      rw [nextToken]
      exact sound.fresh y (known y member)
    · rw [held]
      exact sound.distinct
    · rw [queued]
      exact sound.queuedDistinct
    · rw [held]
      exact sound.linked
    · rw [held]
      exact sound.owner
    · have room := checked.room
      have card := outstanding_snoc_card w.queued [] x
      simp only [held,queued,flying,List.flatMap_cons,List.flatMap_nil,List.append_nil,
        List.nil_append] at card ⊢
      omega
  · refine ⟨?_,?_,?_⟩
    · intro entry member
      rw [painted] at member
      rw [nextToken,clients,entities]
      exact valid.painted.minted entry member
    · intro entry member y inside
      rw [painted] at member
      exact valid.painted.key entry member y (known y inside)
    · intro entry member live
      rw [painted] at member
      rw [alive] at live
      rcases shows member live with leader | pending
      · exact .inl (held ▸ leader)
      · exact .inr pending
  · intro above t r' split reserves
    obtain ⟨rfl,rfl⟩ : above = [] ∧ t = ⟨[x],none,.reserve r⟩ := by
      cases above with
      | nil => simpa [eq_comm] using split
      | cons first more => simp at split
    obtain rfl : r = r' := by simpa using reserves
    refine checked.reserving sound known (fun owned => absurd focus owned) (held ▸ .refl _) queued ?_
    intro entry member same live
    rw [painted] at member
    rw [alive] at live
    rcases shows member live with ⟨y,leader,token⟩ | pending
    · have known : y ∈ w.known [] := mem_known.mpr (.inl leader.1)
      have place : y.key = r.key := (valid.painted.key entry member y known token).trans same
      have wins := (winnerOf_eq_some_iff sound.distinct r.key y).mpr ⟨place,leader⟩
      rw [(winnerOf_eq_some_iff sound.distinct r.key x).mpr ⟨key,leads⟩] at wins
      obtain rfl := Option.some.inj wins
      exact mem_outstanding.mpr ⟨x,.inr List.mem_cons_self,token⟩
    · exact pending

/-- The tree a legacy replacement fells was all there was in its lane. -/
theorem Checked.felled_vacant (sound : Sound w []) {token : Nat}
    (checked : Checked w r (some token)) (owned : r.policy ≠ .focus) {w' : World}
    (held : w'.held = w.held.filter (fun x => !doomed [token] x)) (queued : w'.queued = w.queued) :
    ∀ x ∈ w'.known [], ∀ p ∈ x.places, p.key ≠ r.key := by
  intro x member p inside place
  rw [mem_known,held,queued,List.mem_filter] at member
  have before : x ∈ w.known [] := by
    rw [mem_known]
    tauto
  obtain ⟨l,_,named,_,_,equal,clear⟩ := checked.sharing sound before inside place owned
  obtain rfl := Option.some.inj named
  rcases member with ⟨_,stays⟩ | waiting | absent
  · have spared : doomed [l.token] x = false := by simpa using stays
    simp only [doomed,List.mem_singleton,Bool.or_eq_false_iff,decide_eq_false_iff_not] at spared
    simp only [Record.places,List.mem_cons,Option.mem_toList,Option.map_eq_some_iff] at inside
    rcases inside with rfl | ⟨q,linked,rfl⟩
    · exact spared.1 equal
    · exact absurd equal (by simpa [linked,Parent.place] using spared.2)
  · exact queued_places clear waiting inside place
  · simp at absent

theorem replacement_inv (valid : Inv w []) {token : Nat} (checked : Checked w r (some token))
    (owned : r.policy ≠ .focus) :
    Inv { w with transition := true, registry := (w.registry.removeTree token).1 }
      [⟨(w.registry.removeTree token).2.map Lease.toRecord,none,.reserve r⟩] := by
  have sound : Sound w [] := valid.sound
  have shifts := removeMany_shifts valid [token]
  have fells := w.registry.removeMany_fells [token] sound.distinct
  have pending : (w.registry.removeMany [token]).1.pending = w.registry.pending := fells.pending
  refine valid.launch shifts ⟨rfl,by simp [After.holds],.inl rfl⟩ trivial ?_
  intro r' same
  obtain rfl : r = r' := by simpa using same
  have known := shifts.known []
  simp only [List.append_nil] at known
  have queued : ({ w with transition := true, registry := (w.registry.removeTree token).1 } :
      World).queued = w.queued := by
    simp [World.queued,Registry.removeTree,pending]
  have vacant := checked.felled_vacant sound owned
    (show ({ w with transition := true, registry := (w.registry.removeTree token).1 } :
      World).held = _ from fells.records) queued
  refine checked.reserving sound known (fun _ => vacant) shifts.held queued ?_
  intro entry member place live
  rcases valid.painted.shown entry member live with ⟨x,leads,named⟩ | waiting
  · rcases shifts.leads entry member live x leads named with still | retired
    · have inside : x ∈ w.known [] := mem_known.mpr (.inl leads.1)
      have key := (valid.painted.key entry member x inside named).trans place
      exact absurd key (vacant x (mem_known.mpr (.inl still.1)) x.place List.mem_cons_self)
    · exact retired
  · exact shifts.keeps entry member live waiting

end Outgoing

theorem reserve_valid {w : World} {stack : List (Op × Frame)} (op : Op)
    (valid : Inv w (tasksOf stack)) (owner : String) {key : Key} (base : key.lane = 0)
    (priority : Int) (policy : Policy) (adapters : List Adapter) (parent : Option Nat) :
    Valid (.after op stack (w.reserveWithParent owner key priority policy adapters parent)) := by
  unfold World.reserveWithParent
  split
  · exact valid
  next idle =>
    have none := valid.idle (by simpa using idle)
    split
    · exact valid
    next r passed =>
      have checked := (checkReservation_ok base passed).1
      rw [none] at valid
      have finished := finishReserve_inv valid.clients valid.entities valid.sound valid.painted
        (checked.ready valid)
      have left : Inv (({ w with transition := true } : World).finishReserve r).1 (tasksOf stack) := by
        rw [none]
        exact finished
      exact left
    next r old passed =>
      obtain ⟨checked,same⟩ := checkReservation_ok base passed
      by_cases focus : policy = .focus
      · rw [World.outgoing,if_pos focus]
        apply retireAll_valid op stack (w.registry.suspend old).2.toList
        rw [none] at valid ⊢
        exact takeover_inv valid checked (same.trans focus)
      · rw [World.outgoing,if_neg focus]
        apply retireAll_valid op stack (w.registry.removeTree old).2
        rw [none] at valid ⊢
        exact replacement_inv valid checked (by simpa [same] using focus)

/-- A retirement made up for a lane nobody holds. -/
theorem Inv.synthesize {w : World} {records : List Record} {after : After}
    (valid : Inv w [⟨records,none,after⟩]) (other : ∀ r, after ≠ .reserve r) {n : Record}
    (token : n.token = w.nextToken) (root : n.parent = none) (owned : n.policy ≠ .focus)
    (compatible : ∀ x ∈ w.known records, ∀ p ∈ x.places, p.key.sameGroup n.key = true →
      p.capacity = n.capacity ∧ p.policy ≠ .focus)
    (vacant : ∀ x ∈ w.known records, ∀ p ∈ x.places, p.key ≠ n.key)
    (lane : n.key.lane < n.capacity)
    (room : w.held.length + (outstanding w.queued records).card + 1 ≤ 16384) :
    Inv { w with nextToken := w.nextToken + 1 } [⟨records ++ [n],none,after⟩] := by
  have flight (more : List Record) : flying [⟨more,none,after⟩] = more := by simp [flying]
  have sound : Sound w records := flight records ▸ valid.sound
  have painted : Painted w records := flight records ▸ valid.painted
  have split : ∀ x ∈ w.known (records ++ [n]), x = n ∨ x ∈ w.known records :=
    fun _ => known_snoc
  have apart : ∀ x ∈ w.known records, x.token ≠ n.token := by
    intro x member
    rw [token]
    exact Nat.ne_of_lt (sound.fresh x member)
  have places : n.places = [n.place] := by simp [Record.places,root]
  refine ⟨valid.clients,valid.entities,?_,?_,valid.guarded,?_,?_⟩
  · rw [flight]
    refine ⟨?_,?_,?_,?_,sound.distinct,sound.queuedDistinct,sound.linked,sound.owner,?_⟩
    · refine sound.exclusive.add split (by simp [places]) ?_ (fun _ => vacant) (fun _ => lane)
      intro x member p inside same
      obtain ⟨capacity,kind⟩ := compatible x member p inside same
      exact ⟨capacity,iff_of_false kind owned⟩
    · intro x one y two same
      rcases split x one with rfl | old <;> rcases split y two with rfl | old'
      · rfl
      · exact absurd same.symm (apart y old')
      · exact absurd same (apart x old)
      · exact sound.coherent x old y old' same
    · intro x member
      rcases split x member with rfl | old
      · exact token ▸ Nat.lt_succ_self _
      · exact Nat.lt_succ_of_lt (sound.fresh x old)
    · intro x one y two p q first second same
      rcases split x one with rfl | old
      · simp [root] at first
      · rcases split y two with rfl | old'
        · simp [root] at second
        · exact sound.onlyChild x old y old' p q first second same
    · have card := outstanding_snoc_card w.queued records n
      have size : w.held.length + (outstanding w.queued (records ++ [n])).card ≤ 16384 := by omega
      exact size
  · rw [flight]
    refine ⟨?_,?_,?_⟩
    · intro entry member
      obtain ⟨minted,rest⟩ := painted.minted entry member
      exact ⟨Nat.lt_succ_of_lt minted,rest⟩
    · intro entry member x known same
      rcases split x known with rfl | old
      · have minted := (painted.minted entry member).1
        omega
      · exact painted.key entry member x old same
    · intro entry member live
      rcases painted.shown entry member live with leader | pending
      · exact .inl leader
      · exact .inr (outstanding_append.mpr (.inl pending))
  · intro t member
    obtain rfl := List.mem_singleton.mp member
    have before : after.Justified w := valid.justified ⟨records,none,after⟩ List.mem_cons_self
    cases after with
    | sweep entered retain => cases retain <;> exact before
    | _ => trivial
  · intro above t r equal reserves
    cases above with
    | nil =>
      obtain rfl : (⟨records ++ [n],none,after⟩ : Task) = t := by simpa using equal
      exact absurd reserves (other r)
    | cons first more => simp at equal

theorem cleanups_inv (source : World) (owner : String) (generation : Nat) (key : Key)
    (adapters : List Adapter) (lanes : List Nat) {w : World} {records : List Record}
    {after : After} (other : ∀ r, after ≠ .reserve r) (valid : Inv w [⟨records,none,after⟩])
    (distinct : lanes.Nodup) (bounds : ∀ lane ∈ lanes, lane < adapters.length)
    (compatible : ∀ x ∈ w.known records, ∀ p ∈ x.places, p.key.sameGroup key = true →
      p.capacity = adapters.length ∧ p.policy ≠ .focus)
    (vacant : ∀ lane ∈ lanes, ∀ x ∈ w.known records, ∀ p ∈ x.places, p.key ≠ { key with lane })
    (room : w.held.length + (outstanding w.queued records).card + lanes.length ≤ 16384) :
    Inv { w with nextToken := w.nextToken + lanes.length }
      [⟨records ++ (source.cleanups owner generation key adapters lanes w.nextToken).map
        Lease.toRecord,none,after⟩] := by
  induction lanes generalizing w records with
  | nil => simpa [World.cleanups] using valid
  | cons lane lanes previous =>
    let n : Record := ⟨w.nextToken,owner,generation,{ key with lane },0,source.calls.owner,
      adapters.getD lane {},.legacy,adapters.length,none⟩
    have card := outstanding_snoc_card w.queued records n
    simp only [List.length_cons] at room
    have first : Inv { w with nextToken := w.nextToken + 1 } [⟨records ++ [n],none,after⟩] :=
      valid.synthesize other rfl rfl (by simp [n]) compatible (vacant lane List.mem_cons_self)
        (bounds lane List.mem_cons_self) (by omega)
    have own {p : Place} (inside : p ∈ n.places) : p = n.place := by
      simpa [Record.places,n] using inside
    have rest := previous first (List.nodup_cons.mp distinct).2
      (fun lane member => bounds lane (List.mem_cons_of_mem _ member)) ?_ ?_ ?_
    · simpa [World.cleanups,n,Nat.add_assoc,Nat.add_comm 1] using rest
    · intro x member p inside same
      rcases known_snoc member with rfl | old
      · obtain rfl := own inside
        exact ⟨rfl,by simp [Record.place,n]⟩
      · exact compatible x old p inside same
    · intro later member x known p inside same
      rcases known_snoc known with rfl | old
      · obtain rfl := own inside
        have equal : lane = later := congrArg Key.lane same
        exact (List.nodup_cons.mp distinct).1 (equal ▸ member)
      · exact vacant later (List.mem_cons_of_mem _ member) x old p inside same
    · have size : w.held.length + (outstanding w.queued (records ++ [n])).card + lanes.length ≤
          16384 := by omega
      exact size

/-- What a legacy clear's checks settle. -/
structure Clearable (w : World) (key : Key) (capacity : Nat) (free : List Nat) : Prop where
  group : ∀ p ∈ w.registry.occupancy, p.key.sameGroup key = true →
    p.capacity = capacity ∧ p.policy ≠ .focus ∧ p.key.lane ∉ free
  distinct : free.Nodup
  bounds : ∀ lane ∈ free, lane < capacity
  room : w.registry.leases.length + w.registry.pending.length + free.length ≤ 16384

theorem checkClear_ok {w : World} {owner : String} {key : Key} {adapters : List Adapter}
    {roots free : List Nat} (passed : w.checkClear owner key adapters = .ok (roots,free)) :
    Clearable w key adapters.length free := by
  unfold World.checkClear at passed
  extract_lets capacity group lanes at passed
  obtain ⟨_,_,passed⟩ := bind_ok passed
  obtain ⟨_,_,passed⟩ := bind_ok passed
  obtain ⟨_,_,passed⟩ := bind_ok passed
  obtain ⟨_,_,passed⟩ := bind_ok passed
  obtain ⟨_,_,passed⟩ := bind_ok passed
  obtain ⟨_,clear,passed⟩ := bind_ok passed
  obtain ⟨_,agrees,passed⟩ := bind_ok passed
  obtain ⟨_,room,passed⟩ := bind_ok passed
  have clear := require_ok clear
  have agrees := require_ok agrees
  have room := require_ok room
  simp only [Except.ok.injEq,Prod.mk.injEq] at passed
  obtain ⟨_,rfl⟩ := passed
  refine ⟨?_,List.nodup_range.filter _,?_,by simpa using room⟩
  · intro p member same
    rcases List.mem_append.mp member with leased | pending
    · obtain ⟨l,listed,rfl⟩ := List.mem_map.mp leased
      have inside : l ∈ group := List.mem_filter.mpr ⟨listed,same⟩
      have agree := List.all_eq_true.mp agrees l inside
      simp only [Bool.and_eq_true,decide_eq_true_eq] at agree
      refine ⟨agree.1,agree.2,?_⟩
      intro free
      have apart := List.all_eq_true.mp (List.mem_filter.mp free).2 l inside
      simp [Record.place] at apart
    · -- nothing pending occupies the group
      obtain ⟨l,listed,inside⟩ := List.mem_flatMap.mp pending
      simp only [Registry.pendingGroup,Bool.not_eq_true',List.any_eq_false,Bool.or_eq_true,
        not_or] at clear
      obtain ⟨own,parent⟩ := clear l listed
      simp only [List.mem_cons,Option.mem_toList,Option.map_eq_some_iff] at inside
      rcases inside with rfl | ⟨q,linked,rfl⟩
      · exact absurd same own
      · replace same : q.key.sameGroup key = true := same
        exact absurd (by simp [linked,same]) parent
  · intro lane member
    exact List.mem_range.mp (List.mem_of_mem_filter member)

theorem clearLegacy_valid {w : World} {stack : List (Op × Frame)} (op : Op)
    (valid : Inv w (tasksOf stack)) (owner : String) (key : Key) (adapters : List Adapter) :
    Valid (.after op stack (w.clearLegacy owner key adapters)) := by
  unfold World.clearLegacy
  split
  · exact valid
  next idle =>
    have none := valid.idle (by simpa using idle)
    split
    · exact valid
    next roots free passed =>
      have clearable := checkClear_ok passed
      extract_lets generation
      rw [none] at valid
      have sound : Sound w [] := valid.sound
      have shifts := removeMany_shifts valid roots
      have launched : Inv { w with transition := true, registry := (w.registry.removeMany roots).1 }
          [⟨(w.registry.removeMany roots).2.map Lease.toRecord,Option.none,
            .clearLegacy owner generation key⟩] :=
        valid.launch shifts ⟨rfl,by simp [After.holds],.inl rfl⟩ trivial (by simp)
      have known := shifts.known []
      simp only [List.append_nil] at known
      have occupied {x : Record} {p : Place} (member : x ∈ World.known _ _) (inside : p ∈ x.places) :=
        sound.places_occupied (known x member) inside
      have swept := cleanups_inv w owner generation key adapters free (by simp) launched
        clearable.distinct clearable.bounds ?_ ?_ ?_
      · rw [← List.map_append,← none] at swept
        exact retireAll_valid op stack _ swept
      · intro x member p inside same
        obtain ⟨capacity,kind,_⟩ := clearable.group p (occupied member inside) same
        exact ⟨capacity,kind⟩
      · intro lane member x inFlight p inside same
        have group : p.key.sameGroup key = true := by
          rw [same]
          simp [Key.sameGroup]
        have taken := (clearable.group p (occupied inFlight inside) group).2.2
        exact taken (by simpa [same] using member)
      · have pool := shifts.pool []
        have room := clearable.room
        have few := outstanding_card_le w.queued
        simp only [List.append_nil] at pool
        simp only [World.held,World.queued,Registry.records,List.length_map] at few pool ⊢
        omega

end S2Script.SurfaceLeases
