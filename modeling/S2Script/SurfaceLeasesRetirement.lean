import S2Script.SurfaceLeasesInvariant

/-! How a transition of the surface registry ends: the lease of a reservation goes in,
a sweep drops what nobody will retry, and the transition is released. -/
namespace S2Script.SurfaceLeases

open Liveness Reentrant

/-- The records stay where they are. -/
theorem Shifts.stays {w w' : World} {away : List Record} (queuedDistinct : Distinct w.queued)
    (clients : w.clients.Evolves w'.clients) (entities : w.entities.Evolves w'.entities)
    (nextToken : w.nextToken ≤ w'.nextToken) (held : w'.held = w.held)
    (queued : w'.queued = w.queued) (painted : w'.painted = w.painted) :
    Shifts w away w' away where
  clients := clients
  entities := entities
  nextToken := nextToken
  held := held ▸ .refl _
  closed x _ p _ y inside _ := held ▸ inside
  moved := by
    refine ⟨[],by simp,by simp [held],?_⟩
    rintro x (still | mine)
    · exact .inl (queued ▸ still)
    · exact .inr (.inl mine)
  queued := queued ▸ queuedDistinct
  painted entry member := painted ▸ member
  leads entry _ _ x leads _ := .inl (held ▸ leads)
  keeps entry _ _ outstanding := queued ▸ outstanding

/-- Everything an insertion needs to know once no record is in flight. -/
structure Ready (w : World) (r : Reservation) : Prop where
  compatible : ∀ x ∈ w.known [], ∀ p ∈ x.places, p.key.sameGroup r.key = true →
    p.capacity = r.capacity ∧ (p.policy = .focus ↔ r.policy = .focus)
  vacant : r.policy ≠ .focus → ∀ x ∈ w.known [], ∀ p ∈ x.places, p.key ≠ r.key
  lane : r.policy ≠ .focus → r.key.lane < r.capacity
  parent : ∀ p, r.parent = some p → r.policy = .focus ∧ p.policy ≠ .focus ∧
    (∀ x ∈ w.known [], ∀ q, x.parent = some q → q.token ≠ p.token) ∧
    ∀ x ∈ w.known [], x.token = p.token → x.place = p.place ∧ x.owner = r.owner ∧
      x.generation = r.generation ∧ x.key.index = r.key.index ∧ x.key.entity = r.key.entity ∧
      x.key.slot = r.key.slot ∧ x.key.client = r.key.client
  owner : w.held.countP (fun x => x.owner = r.owner) < 1024
  pool : w.held.length + (outstanding w.queued []).card < 16384
  covered : ∀ entry ∈ w.painted, entry.2 = r.key → w.keyLive entry.2 = true →
    entry.1 ∈ outstanding w.queued [] ∨
      ∃ x, Leads w.held x ∧ x.token = entry.1 ∧ r.priority < x.priority

theorem Reserving.ready {w : World} {r : Reservation} (reserving : Reserving w [] [] none r) :
    Ready w r where
  compatible := reserving.compatible
  vacant owned := reserving.vacant owned rfl
  lane := reserving.lane
  parent := reserving.parent
  owner := reserving.owner
  pool := reserving.pool rfl
  covered entry member same live := .inl (reserving.unpainted entry member same live)

/-- The record of the lease a reservation mints. -/
def Reservation.record (r : Reservation) (token : Nat) : Record :=
  ⟨token,r.owner,r.generation,r.key,r.priority,r.game,r.adapter,r.policy,r.capacity,r.parent⟩

theorem Key.sameGroup_self (key : Key) : key.sameGroup key = true := by simp [Key.sameGroup]

theorem Key.sameGroup_comm (key other : Key) : key.sameGroup other = other.sameGroup key := by
  simp [Key.sameGroup,Bool.beq_comm]

/-- A record whose own lane is free, over a parent already on record. -/
theorem Exclusive.add {records more : List Record} (exclusive : Exclusive records) {n : Record}
    (split : ∀ x ∈ more, x = n ∨ x ∈ records)
    (parent : ∀ p ∈ n.places, p = n.place ∨ ∃ x ∈ records, p ∈ x.places)
    (compatible : ∀ x ∈ records, ∀ p ∈ x.places, p.key.sameGroup n.key = true →
      p.capacity = n.capacity ∧ (p.policy = .focus ↔ n.policy = .focus))
    (vacant : n.policy ≠ .focus → ∀ x ∈ records, ∀ p ∈ x.places, p.key ≠ n.key)
    (lane : n.policy ≠ .focus → n.key.lane < n.capacity) : Exclusive more := by
  have old {x : Record} {p : Place} (member : x ∈ more) (inside : p ∈ x.places) :
      p = n.place ∨ ∃ y ∈ records, p ∈ y.places := by
    rcases split x member with rfl | known
    · exact parent p inside
    · exact .inr ⟨x,known,inside⟩
  refine ⟨?_,?_,?_⟩
  · intro x y p q one two first second same
    rcases old one first with rfl | ⟨x,known,inside⟩ <;>
      rcases old two second with rfl | ⟨y,known',inside'⟩
    · exact ⟨rfl,Iff.rfl⟩
    · rw [Key.sameGroup_comm] at same
      obtain ⟨capacity,policy⟩ := compatible y known' q inside' same
      exact ⟨capacity.symm,policy.symm⟩
    · exact compatible x known p inside same
    · exact exclusive.agree known known' inside inside' same
  · intro x p one first owned
    rcases old one first with rfl | ⟨x,known,inside⟩
    · exact lane owned
    · exact exclusive.lane known inside owned
  · intro x y p q one two first second owned same
    rcases old one first with rfl | ⟨x,known,inside⟩ <;>
      rcases old two second with rfl | ⟨y,known',inside'⟩
    · rfl
    · exact absurd same.symm (vacant owned y known' q inside')
    · have group : p.key.sameGroup n.key = true := by
        rw [same]
        exact Key.sameGroup_self _
      have kind := (compatible x known p inside group).2
      exact absurd same (vacant (fun focus => owned (kind.mpr focus)) x known p inside)
    · exact exclusive.token known known' inside inside' owned same

theorem Linked.mono {held more : List Record} {x : Record} {p : Parent} (linked : Linked held x p)
    (subset : ∀ y ∈ held, y ∈ more) : Linked more x p := by
  obtain ⟨y,inside,rest⟩ := linked.live
  exact ⟨linked.child,linked.parent,y,subset y inside,rest⟩

/-- A leader stays one when a record of another key, or of lower rank, comes in. -/
theorem Leads.add {held : List Record} {x n : Record} (leads : Leads held x)
    (below : n.key = x.key → n.rank ≤ x.rank) : Leads (held ++ [n]) x := by
  refine ⟨List.mem_append_left _ leads.1,?_⟩
  intro other member same
  rcases List.mem_append.mp member with old | new
  · exact leads.2 other old same
  · obtain rfl := List.mem_singleton.mp new
    exact below same

section Insertion

variable {w : World} {r : Reservation} (ready : Ready w r)
include ready

/-- A parent that is still held is the one the reservation was linked to. -/
theorem Ready.held_parent {p : Parent} (linked : r.parent = some p) {y : Record}
    (held : y ∈ w.held) (token : y.token = p.token) : Linked w.held (r.record w.nextToken) p := by
  obtain ⟨focus,occupancy,_,same⟩ := ready.parent p linked
  obtain ⟨place,owner,generation,index,entity,slot,client⟩ := same y (mem_known.mpr (.inl held)) token
  exact ⟨focus,occupancy,y,held,place,owner,generation,index,entity,slot,client⟩

theorem Ready.sound_insert {w' : World} (sound : Sound w []) (held : w'.held = w.held ++ [r.record w.nextToken])
    (queued : w'.queued = w.queued) (nextToken : w'.nextToken = w.nextToken + 1)
    (parent : ∀ p, r.parent = some p → ∃ y ∈ w.held, y.token = p.token) : Sound w' [] := by
  have split : ∀ x ∈ w'.known [], x = r.record w.nextToken ∨ x ∈ w.known [] := by
    intro x member
    simp only [mem_known,held,queued,List.mem_append,List.mem_singleton] at member ⊢
    tauto
  have apart : ∀ x ∈ w.known [], x.token ≠ w.nextToken :=
    fun x member => Nat.ne_of_lt (sound.fresh x member)
  refine ⟨?_,?_,?_,?_,?_,?_,?_,?_,?_⟩
  · refine sound.exclusive.add split ?_ ready.compatible ready.vacant ready.lane
    intro p member
    simp only [Record.places,Reservation.record,List.mem_cons,Option.mem_toList,
      Option.map_eq_some_iff] at member
    rcases member with rfl | ⟨q,linked,rfl⟩
    · exact .inl rfl
    · obtain ⟨y,inside,token⟩ := parent q linked
      have place := ((ready.parent q linked).2.2.2 y (mem_known.mpr (.inl inside)) token).1
      exact .inr ⟨y,mem_known.mpr (.inl inside),by simp [Record.places,place]⟩
  · intro x one y two same
    rcases split x one with rfl | old <;> rcases split y two with rfl | old'
    · rfl
    · exact absurd same.symm (apart y old')
    · exact absurd same (apart x old)
    · exact sound.coherent x old y old' same
  · intro x member
    rw [nextToken]
    rcases split x member with rfl | old
    · exact Nat.lt_succ_self _
    · exact Nat.lt_succ_of_lt (sound.fresh x old)
  · intro x one y two p q first second same
    rcases split x one with rfl | old <;> rcases split y two with rfl | old'
    · rfl
    · exact absurd same.symm ((ready.parent p first).2.2.1 y old' q second)
    · exact absurd same ((ready.parent q second).2.2.1 x old p first)
    · exact sound.onlyChild x old y old' p q first second same
  · have distinct := sound.distinct
    have fresh : w.nextToken ∉ tokens w.held := by
      intro member
      obtain ⟨x,inside,same⟩ := List.mem_map.mp member
      exact apart x (mem_known.mpr (.inl inside)) same
    simpa [held,Distinct,tokens,List.nodup_append,Reservation.record] using
      ⟨distinct,by simpa [tokens] using fresh⟩
  · rw [queued]
    exact sound.queuedDistinct
  · intro x member p linked
    rw [held] at member ⊢
    have grows : ∀ y ∈ w.held, y ∈ w.held ++ [r.record w.nextToken] :=
      fun y inside => List.mem_append_left _ inside
    rcases List.mem_append.mp member with old | new
    · exact (sound.linked x old p linked).mono grows
    · obtain rfl := List.mem_singleton.mp new
      obtain ⟨y,inside,token⟩ := parent p linked
      exact (ready.held_parent linked inside token).mono grows
  · intro owner
    have bound := sound.owner owner
    have room := ready.owner
    by_cases same : r.owner = owner
    · subst same
      simp only [held,List.countP_append,List.countP_singleton,Reservation.record]
      simp only [decide_true,if_true]
      omega
    · simpa [held,List.countP_append,Reservation.record,same] using bound
  · have room := ready.pool
    simp only [held,queued,List.length_append,List.length_singleton]
    omega

theorem Ready.painted_insert {w' : World} (painted : Painted w [])
    (held : w'.held = w.held ++ [r.record w.nextToken]) (queued : w'.queued = w.queued)
    (nextToken : w'.nextToken = w.nextToken + 1) (screen : w'.painted = w.painted)
    (clients : w'.clients = w.clients) (entities : w'.entities = w.entities) : Painted w' [] := by
  refine ⟨?_,?_,?_⟩
  · intro entry member
    obtain ⟨token,entity,client⟩ := painted.minted entry (screen ▸ member)
    rw [nextToken,clients,entities]
    exact ⟨Nat.lt_succ_of_lt token,entity,client⟩
  · intro entry member x known same
    rw [screen] at member
    simp only [mem_known,held,queued,List.mem_append,List.mem_singleton] at known
    rcases known with (old | rfl) | old | none
    · exact painted.key entry member x (mem_known.mpr (.inl old)) same
    · exact absurd same (Nat.ne_of_gt (painted.minted entry member).1)
    · exact painted.key entry member x (mem_known.mpr (.inr (.inl old))) same
    · simp at none
  · intro entry member live
    rw [screen] at member
    have before : w.keyLive entry.2 = true := by
      simpa [World.keyLive,World.clientMatches,clients,entities] using live
    have leading {x : Record} (leads : Leads w.held x) (token : x.token = entry.1)
        (below : r.key = x.key → r.priority < x.priority) : Shown w' [] entry := by
      refine .inl ⟨x,held ▸ leads.add fun same => ?_,token⟩
      exact (Prod.Lex.le_iff).mpr (.inl (below same))
    by_cases same : entry.2 = r.key
    · rcases ready.covered entry member same before with pending | ⟨x,leads,token,above⟩
      · exact .inr (queued ▸ pending)
      · exact leading leads token fun _ => above
    · rcases painted.shown entry member before with ⟨x,leads,token⟩ | pending
      · have key := painted.key entry member x (mem_known.mpr (.inl leads.1)) token
        exact leading leads token fun equal => absurd (key.symm.trans equal.symm) same
      · exact .inr (queued ▸ pending)

end Insertion

/-- The lease goes in, or a lifetime ended meanwhile and only its token is spent. -/
theorem finishReserve_inv {w : World} {r : Reservation} (clients : w.clients.Minted)
    (entities : w.entities.Minted) (sound : Sound w []) (painted : Painted w [])
    (ready : Ready w r) : Inv (w.finishReserve r).1 [] := by
  unfold World.finishReserve
  extract_lets token spent l
  split
  next ended =>
    have shifts : Shifts w [] spent.leave [] :=
      .stays sound.queuedDistinct (.refl _) (.refl _) (Nat.le_succ _) rfl rfl rfl
    have still : Sound spent.leave ([] ++ []) := shifts.sound sound
    exact ⟨clients,entities,still,shifts.painting entities painted,rfl,by simp,by simp⟩
  next goesIn =>
    have parent : ∀ p, r.parent = some p → ∃ y ∈ w.held, y.token = p.token := by
      intro p linked
      simp only [linked,Option.any_some,Bool.or_eq_true,not_or,Bool.not_eq_true,
        Option.isNone_eq_false_iff] at goesIn
      obtain ⟨found,lookup⟩ := Option.isSome_iff_exists.mp goesIn.2
      obtain ⟨inside,named⟩ := Registry.lookup_some _ lookup
      exact ⟨found.toRecord,Registry.mem_records _ inside,named⟩
    have held : (({ spent with registry :=
        { spent.registry with leases := spent.registry.leases ++ [l] } } : World).leave).held =
          w.held ++ [r.record w.nextToken] := by
      simp [World.held,World.leave,Registry.records,spent,l,Reservation.record,token]
    exact ⟨clients,entities,ready.sound_insert sound held rfl rfl parent,
      ready.painted_insert painted held rfl rfl rfl rfl rfl,rfl,by simp,by simp⟩

section Finish

variable {w : World} {failure : Option String} {after : After} {below : List Task}

/-- An operation that held the transition was the outermost. -/
theorem Inv.outermost (valid : Inv w (⟨[],failure,after⟩ :: below)) (holds : after.holds = true) :
    below = [] := valid.guarded.2.1.mp holds

theorem leave_inv (valid : Inv w (⟨[],failure,after⟩ :: below)) (holds : after.holds = true) :
    Inv w.leave below := by
  obtain rfl := valid.outermost holds
  have shifts : Shifts w (flying [⟨[],failure,after⟩]) w.leave (flying []) :=
    .stays valid.sound.queuedDistinct (.refl _) (.refl _) (Nat.le_refl _) rfl rfl rfl
  exact Inv.shift [⟨[],failure,after⟩] [] valid shifts rfl (by simp) (by simp)

/-- A sweep forgets only pending records whose identity is gone. -/
theorem keeps_of_live {entered : Bool} {retain : Retain} {l : Lease} (entities : w.entities.Minted)
    (justified : (After.sweep entered retain).Justified w) (live : w.keyLive l.key = true) :
    World.Retain.keeps w l retain = true := by
  have identity : w.clients.idOf l.key.slot = some l.key.client ∧
      w.entities.idOf l.key.index = some l.key.entity := by
    simp only [World.keyLive,World.clientMatches,LiveTable.isLive,Bool.and_eq_true,beq_iff_eq,
      EntityBooks.live_iff entities] at live
    exact ⟨live.1.2,live.2⟩
  cases retain with
  | all => rfl
  | live => exact live
  | otherClient slot client =>
    by_cases same : l.key.slot = slot ∧ l.key.client = client
    · obtain ⟨rfl,rfl⟩ := same
      exact absurd identity.1 justified.1
    · simp only [World.Retain.keeps,ne_eq,Bool.or_eq_true,decide_eq_true_eq]
      tauto
  | otherEntity index entity =>
    by_cases same : l.key.index = index ∧ l.key.entity = entity
    · obtain ⟨rfl,rfl⟩ := same
      exact absurd identity.2 justified.1
    · simp only [World.Retain.keeps,ne_eq,Bool.or_eq_true,decide_eq_true_eq]
      tauto

theorem finishSweep_shifts {tasks : List Task} (valid : Inv w tasks) {entered : Bool}
    {retain : Retain} (justified : (After.sweep entered retain).Justified w) (away : List Record) :
    Shifts w away (w.finishSweep entered retain) away := by
  have same (l : Lease) : World.Retain.keeps (if entered then w.leave else w) l retain =
      World.Retain.keeps w l retain := by cases entered <;> cases retain <;> rfl
  have pending : (w.finishSweep entered retain).registry.pending =
      w.registry.pending.filter (fun l => World.Retain.keeps w l retain) := by
    simp only [World.finishSweep,same]
    cases entered <;> rfl
  have queued : (w.finishSweep entered retain).queued.Sublist w.queued := by
    simp only [World.queued,pending]
    exact List.filter_sublist.map _
  have held : (w.finishSweep entered retain).held = w.held := by cases entered <;> rfl
  have books : (w.finishSweep entered retain).clients = w.clients ∧
      (w.finishSweep entered retain).entities = w.entities ∧
      (w.finishSweep entered retain).nextToken = w.nextToken ∧
      (w.finishSweep entered retain).painted = w.painted := by cases entered <;> simp [World.finishSweep,World.leave]
  obtain ⟨clients,entities,nextToken,painted⟩ := books
  exact {
    clients := clients ▸ .refl _
    entities := entities ▸ .refl _
    nextToken := Nat.le_of_eq nextToken.symm
    held := held ▸ .refl _
    closed := fun x _ p _ y inside _ => held ▸ inside
    moved := by
      refine ⟨[],by simp,by simp [held],?_⟩
      rintro x (still | mine)
      · exact .inl (queued.subset still)
      · exact .inr (.inl mine)
    queued := valid.sound.queuedDistinct.sublist (queued.map _)
    painted := fun entry member => painted ▸ member
    leads := fun entry _ _ x leads _ => .inl (held ▸ leads)
    keeps := by
      intro entry member live before
      rw [painted] at member
      simp only [World.keyLive,World.clientMatches,clients,entities] at live
      obtain ⟨x,inside,token⟩ := mem_outstanding.mp before
      refine mem_outstanding.mpr ⟨x,?_,token⟩
      rcases inside with waiting | mine
      · have key := valid.painted.key entry member x (mem_known.mpr (.inr (.inl waiting))) token
        obtain ⟨l,listed,rfl⟩ := List.mem_map.mp waiting
        have kept : World.Retain.keeps w l retain = true := by
          apply keeps_of_live valid.entities justified
          rw [key]
          exact live
        refine .inl (List.mem_map_of_mem ?_)
        rw [pending]
        exact List.mem_filter.mpr ⟨listed,kept⟩
      · exact .inr mine }

theorem finishSweep_inv {entered : Bool} {retain : Retain}
    (valid : Inv w (⟨[],failure,.sweep entered retain⟩ :: below)) :
    Inv (w.finishSweep entered retain) below := by
  have justified : (After.sweep entered retain).Justified w :=
    valid.justified ⟨[],failure,.sweep entered retain⟩ List.mem_cons_self
  obtain ⟨taken,outermost,rest⟩ := valid.guarded
  refine Inv.shift [⟨[],failure,.sweep entered retain⟩] [] valid
    (finishSweep_shifts valid justified []) ?_ (by simp) (by simp)
  cases entered with
  | true =>
    obtain rfl := outermost.mp rfl
    rfl
  | false =>
    have nested : below ≠ [] := fun empty => by simpa [After.holds] using outermost.mpr empty
    have unchanged : (w.finishSweep false retain).transition = w.transition := rfl
    rw [unchanged,taken]
    exact rest.resolve_left nested

/-- The end of an operation: it leaves the stack. -/
theorem finish_inv (valid : Inv w (⟨[],failure,after⟩ :: below)) :
    Inv (w.finish failure after).1 below := by
  cases after with
  | reserve r =>
    cases failure with
    | some message => exact leave_inv valid rfl
    | none =>
      obtain rfl := valid.outermost rfl
      have reserving := valid.reserving [] _ r rfl rfl
      exact finishReserve_inv valid.clients valid.entities valid.sound valid.painted reserving.ready
  | release => exact leave_inv valid rfl
  | clearLegacy owner generation key =>
    simp only [World.finish]
    split
    · exact leave_inv valid rfl
    · split
      · exact leave_inv valid rfl
      · exact leave_inv valid rfl
  | sweep entered retain => exact finishSweep_inv valid
  | advanceFrame => exact leave_inv valid rfl

end Finish

/-- The operations called out, as the invariant sees them. -/
def tasksOf (stack : List (Op × Frame)) : List Task := stack.map (fun call => call.2.task)

/-- The invariant of a configuration. -/
def Valid (config : Config World Op Frame) : Prop := Inv config.state (tasksOf config.stack)

theorem retireAll_valid (op : Op) (stack : List (Op × Frame)) (leases : List Lease)
    {failure : Option String} {after : After} {w : World}
    (valid : Inv w (⟨leases.map Lease.toRecord,failure,after⟩ :: tasksOf stack)) :
    Valid (.after op stack (World.retireAll leases failure after w)) := by
  induction leases generalizing w with
  | nil => exact finish_inv valid
  | cons l rest previous =>
    have next := previous (valid.retired (.ok ()))
    unfold World.retireAll
    split
    · exact next
    · split
      · exact valid
      · split
        · exact valid
        · exact next

theorem settled_valid (op : Op) (stack : List (Op × Frame)) {f : Frame} {w : World}
    (valid : Inv w (f.task :: tasksOf stack)) (result : Except String Unit) :
    Valid (.after op stack (w.settled f result)) :=
  retireAll_valid op stack f.rest (valid.retired result)

/-- What an answer leaves. -/
theorem resume_valid (op : Op) (f : Frame) (answer : Except String Unit) (w : World)
    (stack : List (Op × Frame)) (valid : Valid ⟨w,(op,f) :: stack⟩) :
    Valid (.after op stack (process.resume f answer w)) := by
  have own : Inv w (f.task :: tasksOf stack) := valid
  simp only [process,resume,World.answered]
  split
  · split
    · exact own
    · exact settled_valid op stack own answer
  · exact settled_valid op stack own _

end S2Script.SurfaceLeases
