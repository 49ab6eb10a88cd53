import S2Script.SurfaceLeasesRegistry

/-! The invariant of the surface registry. A record is held, queued for another
retirement, or in flight with an operation inside an engine call; the invariant speaks
of all three, so that an answer finds what its operation checked before the call. -/
namespace S2Script.SurfaceLeases

open Liveness Reentrant

/-- The lanes a record takes: its own and its parent's. -/
def Record.places (x : Record) : List Place := x.place :: (x.parent.map Parent.place).toList

/-- An operation in the middle of `retire_all`. -/
structure Task where
  records : List Record
  failure : Option String
  after : After

def Frame.task (f : Frame) : Task :=
  ⟨f.lease.toRecord :: f.rest.map Lease.toRecord,f.failure,f.after⟩

def flying (tasks : List Task) : List Record := tasks.flatMap Task.records

namespace World

def held (w : World) : List Record := w.registry.records

def queued (w : World) : List Record := w.registry.pending.map Lease.toRecord

/-- Every record the registry or a set of operations in flight knows. -/
def known (w : World) (away : List Record) : List Record := w.held ++ w.queued ++ away

end World

/-- Lanes of a group agree on its capacity and kind, and an owned lane has one token. -/
structure Exclusive (records : List Record) : Prop where
  agree : ∀ {x y : Record} {p q : Place}, x ∈ records → y ∈ records → p ∈ x.places → q ∈ y.places →
    p.key.sameGroup q.key = true → p.capacity = q.capacity ∧ (p.policy = .focus ↔ q.policy = .focus)
  lane : ∀ {x : Record} {p : Place}, x ∈ records → p ∈ x.places → p.policy ≠ .focus →
    p.key.lane < p.capacity
  token : ∀ {x y : Record} {p q : Place}, x ∈ records → y ∈ records → p ∈ x.places → q ∈ y.places →
    p.policy ≠ .focus → p.key = q.key → p.token = q.token

/-- The parent is held, by the same owner and for the same identity. -/
structure Linked (held : List Record) (x : Record) (p : Parent) : Prop where
  child : x.policy = .focus
  parent : p.policy ≠ .focus
  live : ∃ y ∈ held, y.place = p.place ∧ y.owner = x.owner ∧ y.generation = x.generation ∧
    y.key.index = x.key.index ∧ y.key.entity = x.key.entity ∧ y.key.slot = x.key.slot ∧
    y.key.client = x.key.client

/-- Tokens with a retirement outstanding. -/
def outstanding (queued away : List Record) : Finset Nat := (tokens (queued ++ away)).toFinset

/-- The records in order, with `away` in flight. -/
structure Sound (w : World) (away : List Record) : Prop where
  exclusive : Exclusive (w.known away)
  coherent : ∀ x ∈ w.known away, ∀ y ∈ w.known away, x.token = y.token → x = y
  fresh : ∀ x ∈ w.known away, x.token < w.nextToken
  onlyChild : ∀ x ∈ w.known away, ∀ y ∈ w.known away, ∀ p q, x.parent = some p →
    y.parent = some q → p.token = q.token → x.token = y.token
  distinct : Distinct w.held
  queuedDistinct : Distinct w.queued
  linked : ∀ x ∈ w.held, ∀ p, x.parent = some p → Linked w.held x p
  owner : ∀ owner, w.held.countP (fun x => x.owner = owner) ≤ 1024
  pool : w.held.length + (outstanding w.queued away).card ≤ 16384

/-- A presentation on screen belongs to the leader of its key or to a token with a
retirement outstanding. -/
def Shown (w : World) (away : List Record) (entry : Nat × Key) : Prop :=
  (∃ x, Leads w.held x ∧ x.token = entry.1) ∨ entry.1 ∈ outstanding w.queued away

/-- The painted tokens are minted, and so are the identities in their keys. -/
structure Painted (w : World) (away : List Record) : Prop where
  minted : ∀ entry ∈ w.painted, entry.1 < w.nextToken ∧ entry.2.entity < w.entities.nextId ∧
    entry.2.client < w.clients.nextId
  key : ∀ entry ∈ w.painted, ∀ x ∈ w.known away, x.token = entry.1 → x.key = entry.2
  shown : ∀ entry ∈ w.painted, w.keyLive entry.2 = true → Shown w away entry

/-- What a reservation established before its engine calls still holds: `above` are
the records in flight with nested sweeps, `own` those it is retiring itself. -/
structure Reserving (w : World) (above own : List Record) (failure : Option String)
    (r : Reservation) : Prop where
  compatible : ∀ x ∈ w.known (above ++ own), ∀ p ∈ x.places, p.key.sameGroup r.key = true →
    p.capacity = r.capacity ∧ (p.policy = .focus ↔ r.policy = .focus)
  vacant : r.policy ≠ .focus → failure = none → ∀ x ∈ w.known above, ∀ p ∈ x.places, p.key ≠ r.key
  lane : r.policy ≠ .focus → r.key.lane < r.capacity
  parent : ∀ p, r.parent = some p → r.policy = .focus ∧ p.policy ≠ .focus ∧
    (∀ x ∈ w.known (above ++ own), ∀ q, x.parent = some q → q.token ≠ p.token) ∧
    ∀ x ∈ w.known (above ++ own), x.token = p.token → x.place = p.place ∧ x.owner = r.owner ∧
      x.generation = r.generation ∧ x.key.index = r.key.index ∧ x.key.entity = r.key.entity ∧
      x.key.slot = r.key.slot ∧ x.key.client = r.key.client
  owner : w.held.countP (fun x => x.owner = r.owner) < 1024
  pool : failure = none → w.held.length + (outstanding w.queued above).card < 16384
  unpainted : ∀ entry ∈ w.painted, entry.2 = r.key → w.keyLive entry.2 = true →
    entry.1 ∈ outstanding w.queued (above ++ own)

/-- The operation releases the transition when it ends. -/
def After.holds : After → Bool
  | .sweep entered _ => entered
  | _ => true

/-- The transition is taken exactly while an operation is in flight, by the outermost. -/
def Guarded : Bool → List Task → Prop
  | transition, [] => transition = false
  | transition, t :: below => transition = true ∧ (t.after.holds = true ↔ below = []) ∧
    (below = [] ∨ Guarded true below)

/-- A sweep that drops pending records of an identity runs after that identity died. -/
def After.Justified (w : World) : After → Prop
  | .sweep _ (.otherClient slot client) => w.clients.idOf slot ≠ some client ∧ client < w.clients.nextId
  | .sweep _ (.otherEntity index entity) =>
    w.entities.idOf index ≠ some entity ∧ entity < w.entities.nextId
  | _ => True

structure Inv (w : World) (tasks : List Task) : Prop where
  clients : w.clients.Minted
  entities : w.entities.Minted
  sound : Sound w (flying tasks)
  painted : Painted w (flying tasks)
  guarded : Guarded w.transition tasks
  justified : ∀ t ∈ tasks, t.after.Justified w
  reserving : ∀ above t r, tasks = above ++ [t] → t.after = .reserve r →
    Reserving w (flying above) t.records t.failure r

theorem initial_inv : Inv initial [] where
  clients := .new
  entities := .new
  sound := by
    constructor <;> simp [initial,World.known,World.held,World.queued,Registry.records,flying,
      outstanding,tokens,Distinct]
    · constructor <;> simp
  painted := by constructor <;> simp [initial]
  guarded := rfl
  justified := by simp
  reserving := by simp

/-- Records only move: from held to in flight, from in flight to queued, or away. `away`
and `away'` are in flight with the operation at hand; others are not its business. -/
structure Shifts (w : World) (away : List Record) (w' : World) (away' : List Record) : Prop where
  clients : w.clients.Evolves w'.clients
  entities : w.entities.Evolves w'.entities
  nextToken : w.nextToken ≤ w'.nextToken
  held : w'.held.Subperm w.held
  closed : ∀ x ∈ w'.held, ∀ p, x.parent = some p → ∀ y ∈ w.held, y.token = p.token → y ∈ w'.held
  moved : ∃ moved : List Record, (∀ x ∈ moved, x ∈ w.held) ∧
    w'.held.length + moved.length ≤ w.held.length ∧
    ∀ x, x ∈ w'.queued ∨ x ∈ away' → x ∈ w.queued ∨ x ∈ away ∨ x ∈ moved
  queued : Distinct w'.queued
  painted : ∀ entry ∈ w'.painted, entry ∈ w.painted
  leads : ∀ entry ∈ w'.painted, w'.keyLive entry.2 = true → ∀ x, Leads w.held x →
    x.token = entry.1 → Leads w'.held x ∨ entry.1 ∈ outstanding w'.queued away'
  keeps : ∀ entry ∈ w'.painted, w'.keyLive entry.2 = true →
    entry.1 ∈ outstanding w.queued away → entry.1 ∈ outstanding w'.queued away'

theorem mem_known {w : World} {away : List Record} {x : Record} :
    x ∈ w.known away ↔ x ∈ w.held ∨ x ∈ w.queued ∨ x ∈ away := by
  simp [World.known]

theorem mem_outstanding {queued away : List Record} {token : Nat} :
    token ∈ outstanding queued away ↔ ∃ x, (x ∈ queued ∨ x ∈ away) ∧ x.token = token := by
  simp [outstanding,tokens,or_and_right,exists_or]

theorem outstanding_append {queued away others : List Record} {token : Nat} :
    token ∈ outstanding queued (away ++ others) ↔
      token ∈ outstanding queued away ∨ token ∈ tokens others := by
  simp [outstanding,tokens,or_assoc]

theorem Exclusive.mono {records fewer : List Record} (exclusive : Exclusive records)
    (subset : ∀ x ∈ fewer, x ∈ records) : Exclusive fewer where
  agree one two := exclusive.agree (subset _ one) (subset _ two)
  lane one := exclusive.lane (subset _ one)
  token one two := exclusive.token (subset _ one) (subset _ two)

namespace Shifts

variable {w w' : World} {away away' : List Record}

theorem known (shifts : Shifts w away w' away') (others : List Record) :
    ∀ x ∈ w'.known (away' ++ others), x ∈ w.known (away ++ others) := by
  obtain ⟨moved,from_held,_,came⟩ := shifts.moved
  intro x member
  simp only [mem_known,List.mem_append] at member ⊢
  rcases member with kept | queued | new | other
  · exact .inl (shifts.held.subset kept)
  · rcases came x (.inl queued) with old | old | taken
    · exact .inr (.inl old)
    · exact .inr (.inr (.inl old))
    · exact .inl (from_held x taken)
  · rcases came x (.inr new) with old | old | taken
    · exact .inr (.inl old)
    · exact .inr (.inr (.inl old))
    · exact .inl (from_held x taken)
  · exact .inr (.inr (.inr other))

/-- A record leaves the held ones for every token that becomes outstanding. -/
theorem pool (shifts : Shifts w away w' away') (others : List Record) :
    w'.held.length + (outstanding w'.queued (away' ++ others)).card ≤
      w.held.length + (outstanding w.queued (away ++ others)).card := by
  obtain ⟨moved,_,size,came⟩ := shifts.moved
  have subset : outstanding w'.queued (away' ++ others) ⊆
      outstanding w.queued (away ++ others) ∪ (tokens moved).toFinset := by
    intro token member
    rw [Finset.mem_union]
    rcases outstanding_append.mp member with new | other
    · obtain ⟨x,inside,rfl⟩ := mem_outstanding.mp new
      rcases came x inside with old | old | taken
      · exact .inl (mem_outstanding.mpr ⟨x,.inl old,rfl⟩)
      · exact .inl (outstanding_append.mpr (.inl (mem_outstanding.mpr ⟨x,.inr old,rfl⟩)))
      · exact .inr (by simpa using ⟨x,taken,rfl⟩)
    · exact .inl (outstanding_append.mpr (.inr other))
  have card := (Finset.card_le_card subset).trans (Finset.card_union_le _ _)
  have few : (tokens moved).toFinset.card ≤ moved.length :=
    (List.toFinset_card_le _).trans (by simp [tokens])
  omega

theorem sound (shifts : Shifts w away w' away') {others : List Record}
    (sound : Sound w (away ++ others)) : Sound w' (away' ++ others) where
  exclusive := sound.exclusive.mono (shifts.known others)
  coherent x one y two := sound.coherent x (shifts.known others x one) y (shifts.known others y two)
  fresh x one := Nat.lt_of_lt_of_le (sound.fresh x (shifts.known others x one)) shifts.nextToken
  onlyChild x one y two :=
    sound.onlyChild x (shifts.known others x one) y (shifts.known others y two)
  distinct := sound.distinct.subperm shifts.held
  queuedDistinct := shifts.queued
  linked x member p parent := by
    have before := sound.linked x (shifts.held.subset member) p parent
    obtain ⟨y,inside,place,rest⟩ := before.live
    have token : y.token = p.token := congrArg Place.token place
    exact ⟨before.child,before.parent,y,shifts.closed x member p parent y inside token,place,rest⟩
  owner owner := (shifts.held.countP_le _).trans (sound.owner owner)
  pool := (shifts.pool others).trans sound.pool

/-- An identity on record that is live now was live before. -/
theorem keyLive (shifts : Shifts w away w' away') (entities : w.entities.Minted) {key : Key}
    (entity : key.entity < w.entities.nextId)
    (client : key.client < w.clients.nextId) (live : w'.keyLive key = true) :
    w.keyLive key = true := by
  simp only [World.keyLive,World.clientMatches,LiveTable.isLive,Bool.and_eq_true,beq_iff_eq,
    EntityBooks.live_iff (entities.evolves shifts.entities)] at live
  simp only [World.keyLive,World.clientMatches,LiveTable.isLive,Bool.and_eq_true,beq_iff_eq,
    EntityBooks.live_iff entities]
  refine ⟨⟨live.1.1,?_⟩,?_⟩
  · rcases shifts.clients.live live.1.2 with old | fresh
    · exact old
    · omega
  · rcases shifts.entities.live live.2 with old | fresh
    · exact old
    · omega

theorem painting (shifts : Shifts w away w' away') (entities : w.entities.Minted) {others : List Record} (painted : Painted w (away ++ others)) :
    Painted w' (away' ++ others) where
  minted entry member := by
    obtain ⟨token,entity,client⟩ := painted.minted entry (shifts.painted entry member)
    exact ⟨Nat.lt_of_lt_of_le token shifts.nextToken,
      Nat.lt_of_lt_of_le entity shifts.entities.minting,
      Nat.lt_of_lt_of_le client shifts.clients.minting⟩
  key entry member x inside :=
    painted.key entry (shifts.painted entry member) x (shifts.known others x inside)
  shown entry member live := by
    have before := shifts.painted entry member
    obtain ⟨_,entity,client⟩ := painted.minted entry before
    rcases painted.shown entry before (shifts.keyLive entities entity client live) with
      ⟨x,leads,token⟩ | outstanding
    · rcases shifts.leads entry member live x leads token with still | taken
      · exact .inl ⟨x,still,token⟩
      · exact .inr (outstanding_append.mpr (.inl taken))
    · rcases outstanding_append.mp outstanding with mine | other
      · exact .inr (outstanding_append.mpr (.inl (shifts.keeps entry member live mine)))
      · exact .inr (outstanding_append.mpr (.inr other))

/-- A reservation below in the stack is not disturbed. -/
theorem reserving (shifts : Shifts w away w' away') (entities : w.entities.Minted) {others own : List Record} {failure : Option String}
    {r : Reservation} (painted : Painted w (away ++ others ++ own))
    (reserving : Reserving w (away ++ others) own failure r) :
    Reserving w' (away' ++ others) own failure r where
  compatible x member := by
    rw [List.append_assoc] at member
    refine reserving.compatible x ?_
    rw [List.append_assoc]
    exact shifts.known _ x member
  vacant owned success x member := reserving.vacant owned success x (shifts.known _ x member)
  lane := reserving.lane
  parent p linked := by
    obtain ⟨focus,occupancy,childless,same⟩ := reserving.parent p linked
    have known : ∀ x ∈ w'.known (away' ++ others ++ own), x ∈ w.known (away ++ others ++ own) := by
      intro x member
      rw [List.append_assoc] at member ⊢
      exact shifts.known _ x member
    exact ⟨focus,occupancy,fun x member => childless x (known x member),
      fun x member => same x (known x member)⟩
  owner := Nat.lt_of_le_of_lt (shifts.held.countP_le _) reserving.owner
  pool success := Nat.lt_of_le_of_lt (shifts.pool others) (reserving.pool success)
  unpainted entry member same live := by
    have before := shifts.painted entry member
    obtain ⟨_,entity,client⟩ := painted.minted entry before
    have old := reserving.unpainted entry before same
      (shifts.keyLive entities entity client live)
    rw [List.append_assoc] at old ⊢
    rcases outstanding_append.mp old with mine | other
    · exact outstanding_append.mpr (.inl (shifts.keeps entry member live mine))
    · exact outstanding_append.mpr (.inr other)

theorem justified (shifts : Shifts w away w' away') {after : After}
    (justified : after.Justified w) : after.Justified w' := by
  cases after with
  | sweep entered retain =>
    cases retain with
    | all => trivial
    | live => trivial
    | otherClient slot client =>
      refine ⟨fun now => ?_,Nat.lt_of_lt_of_le justified.2 shifts.clients.minting⟩
      rcases shifts.clients.live now with old | fresh
      · exact justified.1 old
      · exact absurd justified.2 (Nat.not_lt.mpr fresh.1)
    | otherEntity index entity =>
      refine ⟨fun now => ?_,Nat.lt_of_lt_of_le justified.2 shifts.entities.minting⟩
      rcases shifts.entities.live now with old | fresh
      · exact justified.1 old
      · exact absurd justified.2 (Nat.not_lt.mpr fresh.1)
  | _ => trivial

end Shifts

@[simp] theorem flying_append (top below : List Task) :
    flying (top ++ below) = flying top ++ flying below := by simp [flying]

/-- The shift rule. The operation at hand is the task in `top`, if it has one yet, and
becomes `top'`; only an outermost reservation has to account for itself. -/
theorem Inv.shift {w w' : World} (top top' : List Task) {below : List Task}
    (valid : Inv w (top ++ below))
    (shifts : Shifts w (flying top) w' (flying top'))
    (guarded : Guarded w'.transition (top' ++ below))
    (justified : ∀ t ∈ top', t.after.Justified w')
    (outermost : below = [] → ∀ above t r, top' = above ++ [t] → t.after = .reserve r →
      Reserving w' (flying above) t.records t.failure r) : Inv w' (top' ++ below) where
  clients := valid.clients.evolves shifts.clients
  entities := valid.entities.evolves shifts.entities
  sound := by
    have sound := valid.sound
    rw [flying_append] at sound ⊢
    exact shifts.sound sound
  painted := by
    have painted := valid.painted
    rw [flying_append] at painted ⊢
    exact shifts.painting valid.entities painted
  guarded := guarded
  justified t member := by
    rcases List.mem_append.mp member with mine | other
    · exact justified t mine
    · exact shifts.justified (valid.justified t (List.mem_append_right _ other))
  reserving above t r split reserves := by
    rcases below.eq_nil_or_concat with rfl | ⟨middle,last,rfl⟩
    · exact outermost rfl above t r (by simpa using split) reserves
    · rw [List.concat_eq_append,← List.append_assoc] at split
      obtain ⟨rfl,same⟩ := List.append_inj' split rfl
      obtain rfl : last = t := by simpa using same
      have painted := valid.painted
      simp only [List.concat_eq_append,flying_append,← List.append_assoc] at painted
      rw [flying_append]
      refine shifts.reserving valid.entities ?_ ?_
      · simpa [flying] using painted
      · have before := valid.reserving (top ++ middle) last r (by simp) reserves
        rwa [flying_append] at before

section Retired

variable {w : World} {l : Lease} {after : After} {rest : List Record} {below : List Task}
  {failure : Option String}

@[simp] theorem retired_held (result : Except String Unit) :
    (w.retired l result after).held = w.held := by
  cases result with
  | ok _ => cases after <;> simp [World.retired,World.unpaint,World.held]
  | error _ =>
    simp only [World.retired]
    split <;> rfl

theorem retired_ok_queued : (w.retired l (.ok ()) after).queued = w.queued := by
  cases after <;> simp [World.retired,World.unpaint,World.queued]

theorem retired_ok_painted : (w.retired l (.ok ()) after).painted =
    w.painted.filter (fun entry => entry.1 ≠ l.token) := by
  cases after <;> simp [World.retired,World.unpaint]

theorem retired_error_painted (message : String) :
    (w.retired l (.error message) after).painted = w.painted := by
  simp only [World.retired]
  split <;> rfl

/-- A failed retirement is queued, unless it is already or nobody is left to see it. -/
theorem retired_error_queued (w : World) (l : Lease) (message : String) (after : After) :
    (w.retired l (.error message) after).queued = w.queued ∧
        (w.keyLive l.key = false ∨ l.token ∈ tokens w.queued) ∨
      (w.retired l (.error message) after).queued = w.queued ++ [l.toRecord] ∧
        l.token ∉ tokens w.queued := by
  have present : (w.registry.pending.any (fun p => p.token = l.token)) = true ↔
      l.token ∈ tokens w.queued := by
    simp [tokens,World.queued]
  simp only [World.retired,Bool.and_eq_true,Bool.not_eq_true',World.identityLive]
  by_cases live : w.keyLive l.key = true
  · by_cases already : l.token ∈ tokens w.queued
    · exact .inl ⟨by simp [present.mpr already,World.queued],.inr already⟩
    · have absent : (w.registry.pending.any (fun p => p.token = l.token)) = false := by
        simpa [← present] using already
      exact .inr ⟨by simp [live,absent,World.queued],already⟩
  · exact .inl ⟨by simp [live,World.queued],.inl (by simpa using live)⟩

theorem retired_books (w : World) (l : Lease) (result : Except String Unit) (after : After) :
    (w.retired l result after).clients = w.clients ∧
      (w.retired l result after).entities = w.entities ∧
      (w.retired l result after).nextToken = w.nextToken ∧
      (w.retired l result after).transition = w.transition := by
  cases result with
  | ok _ => cases after <;> simp [World.retired,World.unpaint]
  | error _ =>
    simp only [World.retired]
    split <;> simp

theorem retired_keyLive (result : Except String Unit) (key : Key) :
    (w.retired l result after).keyLive key = w.keyLive key := by
  obtain ⟨clients,entities,_,_⟩ := retired_books w l result after
  simp [World.keyLive,World.clientMatches,clients,entities]

/-- One item of `retire_all` settles: gone from the screen, queued, or moot. -/
theorem retired_shifts (valid : Inv w (⟨l.toRecord :: rest,failure,after⟩ :: below))
    (result : Except String Unit) :
    Shifts w (l.toRecord :: rest) (w.retired l result after) rest := by
  obtain ⟨clients,entities,nextToken,_⟩ := retired_books w l result after
  have moved : ∀ x, x ∈ (w.retired l result after).queued ∨ x ∈ rest →
      x ∈ w.queued ∨ x ∈ l.toRecord :: rest ∨ x ∈ ([] : List Record) := by
    rintro x (queued | other)
    · match result with
      | .ok () => exact .inl (by simpa [retired_ok_queued] using queued)
      | .error message =>
        rcases retired_error_queued w l message after with ⟨same,_⟩ | ⟨more,_⟩
        · exact .inl (same ▸ queued)
        · rw [more] at queued
          rcases List.mem_append.mp queued with old | mine
          · exact .inl old
          · exact .inr (.inl (List.mem_singleton.mp mine ▸ List.mem_cons_self))
    · exact .inr (.inl (List.mem_cons_of_mem _ other))
  refine ⟨by simp [clients,LiveTable.Evolves.refl],by simp [entities,LiveTable.Evolves.refl],
    Nat.le_of_eq nextToken.symm,by simp [List.Subperm.refl],?_,⟨[],by simp,by simp,moved⟩,?_,?_,?_,?_⟩
  · intro x member p parent y inside _
    simpa using inside
  · match result with
    | .ok () => simpa [retired_ok_queued] using valid.sound.queuedDistinct
    | .error message =>
      rcases retired_error_queued w l message after with ⟨same,_⟩ | ⟨more,new⟩
      · exact same ▸ valid.sound.queuedDistinct
      · rw [more]
        simpa [Distinct,tokens,List.nodup_append] using
          ⟨valid.sound.queuedDistinct,by simpa [tokens] using new⟩
  · match result with
    | .ok () =>
      intro entry member
      exact List.mem_of_mem_filter (retired_ok_painted ▸ member)
    | .error message => simp [retired_error_painted]
  · intro entry member live x leads token
    exact .inl (by simpa using leads)
  · intro entry member live before
    obtain ⟨x,inside,token⟩ := mem_outstanding.mp before
    match result with
    | .ok () =>
      rw [retired_ok_painted] at member
      have other : entry.1 ≠ l.token := by simpa using (List.mem_filter.mp member).2
      rw [retired_ok_queued]
      refine mem_outstanding.mpr ⟨x,?_,token⟩
      rcases inside with queued | away
      · exact .inl queued
      · rcases List.mem_cons.mp away with rfl | away
        · exact absurd token.symm other
        · exact .inr away
    | .error message =>
      rw [retired_error_painted] at member
      rw [retired_keyLive] at live
      by_cases same : entry.1 = l.token
      · -- the failed one: its key is the painted key, so it is live and stays queued
        have key : l.key = entry.2 := valid.painted.key entry member l.toRecord
          (mem_known.mpr (.inr (.inr (by simp [flying])))) same.symm
        rcases retired_error_queued w l message after with ⟨kept,dead | already⟩ | ⟨more,_⟩
        · rw [key,live] at dead
          cases dead
        · obtain ⟨y,queued,named⟩ := List.mem_map.mp already
          rw [kept]
          exact mem_outstanding.mpr ⟨y,.inl queued,named.trans same.symm⟩
        · rw [more]
          exact mem_outstanding.mpr ⟨l.toRecord,.inl (by simp),same.symm⟩
      · have stays : ∀ y ∈ w.queued, y ∈ (w.retired l (.error message) after).queued := by
          intro y queued
          rcases retired_error_queued w l message after with ⟨kept,_⟩ | ⟨more,_⟩
          · exact kept ▸ queued
          · exact more ▸ List.mem_append_left _ queued
        refine mem_outstanding.mpr ⟨x,?_,token⟩
        rcases inside with queued | away
        · exact .inl (stays x queued)
        · rcases List.mem_cons.mp away with rfl | away
          · exact absurd token.symm same
          · exact .inr away

/-- A reservation's own retirements: while they succeed its lane stays vacant. -/
theorem Reserving.retired {r : Reservation} (reserving : Reserving w [] (l.toRecord :: rest) failure r)
    (valid : Inv w (⟨l.toRecord :: rest,failure,after⟩ :: below)) (result : Except String Unit) :
    Reserving (w.retired l result after) [] rest (World.firstFailure failure result) r := by
  have shifts := retired_shifts valid result
  have known := shifts.known []
  simp only [List.append_nil] at known
  refine ⟨?_,?_,reserving.lane,?_,?_,?_,?_⟩
  · exact fun x member => reserving.compatible x (known x member)
  · intro owned success
    match result with
    | .error message => simp [World.firstFailure] at success
    | .ok () =>
      intro x member
      refine reserving.vacant owned success x ?_
      simpa [World.known,retired_ok_queued] using member
  · intro p linked
    obtain ⟨focus,occupancy,childless,same⟩ := reserving.parent p linked
    exact ⟨focus,occupancy,fun x member => childless x (known x member),
      fun x member => same x (known x member)⟩
  · simpa using reserving.owner
  · intro success
    match result with
    | .error message => simp [World.firstFailure] at success
    | .ok () => simpa [retired_ok_queued] using reserving.pool success
  · intro entry member same live
    have before := shifts.painted entry member
    rw [retired_keyLive] at live
    have old := reserving.unpainted entry before same live
    exact shifts.keeps entry member (by rwa [retired_keyLive]) old

theorem Inv.retired (valid : Inv w (⟨l.toRecord :: rest,failure,after⟩ :: below))
    (result : Except String Unit) :
    Inv (w.retired l result after)
      (⟨rest,World.firstFailure failure result,after⟩ :: below) := by
  have shifts := retired_shifts valid result
  obtain ⟨_,_,_,transition⟩ := retired_books w l result after
  refine Inv.shift [⟨l.toRecord :: rest,failure,after⟩]
    [⟨rest,World.firstFailure failure result,after⟩] valid ?_ ?_ ?_ ?_
  · simpa [flying] using shifts
  · have guarded := valid.guarded
    rw [transition]
    exact guarded
  · intro t member
    obtain rfl := List.mem_singleton.mp member
    have before : after.Justified w :=
      valid.justified ⟨l.toRecord :: rest,failure,after⟩ List.mem_cons_self
    exact shifts.justified before
  · rintro rfl above t r split reserves
    obtain ⟨rfl,rfl⟩ : above = [] ∧ t = ⟨rest,World.firstFailure failure result,after⟩ := by
      cases above with
      | nil => simpa [eq_comm] using split
      | cons first more => simp at split
    have reserving := valid.reserving [] _ r rfl reserves
    simpa [flying] using reserving.retired valid result

end Retired

end S2Script.SurfaceLeases
