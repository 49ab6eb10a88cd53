import S2Script.ChatVotes

/-! Every vote that starts ends once, with a result or cancelled, before its countdown has fired more often
than it has seconds; its result tells honestly of the ballots that stand. -/
namespace S2Script.ChatVotes

/-- The slot and the option of an action that casts a ballot. -/
def Action.ballot : Action → Option (Int × Int)
  | .cast slot index => some (slot,index)
  | .chat slot text => match VersionRanges.trim text with
    | [digit] => if digit.isDigit && digit != '0' then some (slot,(digit.toNat : Int) - 49) else none
    | _ => none
  | _ => none

/-- The slot and the client of a disconnect. -/
def Action.departure : Action → Option (Int × Nat)
  | .disconnected slot token => some (slot,token)
  | _ => none

/-- An option the vote has. -/
def Vote.Offers (vote : Vote) (index : Int) : Prop := 0 ≤ index ∧ index < vote.options.length

instance (vote : Vote) (index : Int) : Decidable (vote.Offers index) := inferInstanceAs (Decidable (_ ∧ _))

namespace Host

/-- What an action does to a vote that runs on. -/
def effect (host : Host) (vote : Vote) (action : Action) : Table Int Nat × Table Int Nat :=
  match action.ballot with
  | some (slot,index) =>
    if vote.Offers index then (vote.votes.insert slot index.toNat,vote.voters.insert slot (host.generation slot))
    else (vote.votes,vote.voters)
  | none => match action.departure with
    | some (slot,token) =>
      if vote.voters.lookup slot = some token then (vote.votes.erase slot,vote.voters.erase slot) else (vote.votes,vote.voters)
    | none => (vote.votes,vote.voters)

/-- Ids are below the next one, ballots are for options there are, each with the client that cast it, and a running
vote's countdown is pending. -/
structure Invariant (host : Host) : Prop where
  below : ∀ vote, host.state = some vote → vote.id < host.nextVote
  valid : ∀ vote, host.state = some vote → vote.Valid
  voters : ∀ vote, host.state = some vote → ∀ slot, (vote.votes.lookup slot).isSome = (vote.voters.lookup slot).isSome
  pending : ∀ vote, host.state = some vote → host.ticks.count vote.id = 1
  past : ∀ id, id ∈ host.ticks → id < host.nextVote
  once : host.ticks.Nodup

theorem cast_none {host : Host} (idle : host.state = none) (slot index : Int) : host.cast slot index = host := by
  simp [cast,idle]

/-- `cast` puts a ballot in. -/
theorem cast_some {host : Host} {vote : Vote} (running : host.state = some vote) (slot index : Int) :
    host.cast slot index = if vote.Offers index then { host with state := some { vote with
      votes := vote.votes.insert slot index.toNat, voters := vote.voters.insert slot (host.generation slot) } } else host := by
  simp only [cast,running]
  by_cases offers : vote.Offers index
  · have inside : ¬ (index < 0 ∨ (vote.options.length : Int) ≤ index) := by
      rintro (low | high)
      · exact absurd offers.1 (by omega)
      · exact absurd offers.2 (by omega)
    rw [if_neg inside,if_pos offers]
  · have outside : index < 0 ∨ (vote.options.length : Int) ≤ index := by
      by_contra inside
      simp only [not_or,not_lt,not_le] at inside
      exact offers inside
    rw [if_pos outside,if_neg offers]

theorem step_ballot (host : Host) {action : Action} {slot index : Int} (casts : action.ballot = some (slot,index)) :
    host.step action = (host.cast slot index,[]) := by
  cases action with
  | cast place chosen =>
    cases casts
    rfl
  | chat place text =>
    simp only [Action.ballot] at casts
    split at casts
    next digit here =>
      split at casts
      next valid =>
        cases casts
        simp only [step,castFromChat,here,valid,if_true]
      next => cases casts
    next => cases casts
  | _ => cases casts

theorem step_chat_ordinary (host : Host) {slot : Int} {text : List Char} (ordinary : (Action.chat slot text).ballot = none) :
    host.step (.chat slot text) = (host,[]) := by
  simp only [Action.ballot] at ordinary
  simp only [step,castFromChat]
  split
  next digit here =>
    simp only [here] at ordinary
    split at ordinary
    · cases ordinary
    next off => rw [if_neg off]
  next => rfl

/-- A countdown that fires ends its vote, or takes a second and is pending again. -/
theorem tick_cases (host : Host) {vote : Vote} (running : host.state = some vote) :
    host.tick vote.id = host.finish vote ∨
      (0 < vote.secondsLeft ∧ ∃ ticking : Vote, ticking = { vote with secondsLeft := vote.secondsLeft - 1 } ∧
        host.tick vote.id = host.finish ticking) ∨
      (0 < vote.secondsLeft ∧ host.tick vote.id =
        ({ host with state := some { vote with secondsLeft := vote.secondsLeft - 1 }, ticks := vote.id :: host.ticks },[])) := by
  simp only [tick,running]
  by_cases spent : vote.secondsLeft = 0
  · simp [spent]
  · have left : 0 < vote.secondsLeft := Nat.pos_of_ne_zero spent
    by_cases turnout : 0 < host.eligibleSlots.length ∧ host.eligibleSlots.length ≤ vote.votes.size
    · exact .inr (.inl ⟨left,_,rfl,by simp [spent,turnout]⟩)
    · exact .inr (.inr ⟨left,by simp [spent,turnout]⟩)

/-- A countdown of a vote that is not running does nothing. -/
theorem tick_stale (host : Host) {id : Nat} (stale : ∀ vote, host.state = some vote → vote.id ≠ id) : host.tick id = (host,[]) := by
  rw [tick]
  split
  · rfl
  next vote running => rw [if_pos (stale vote running)]

/-- Nobody has voted yet: the countdown goes on. -/
theorem tick_empty {host : Host} {vote : Vote} (running : host.state = some vote) (left : 0 < vote.secondsLeft)
    (empty : vote.votes.size = 0) : host.tick vote.id =
      ({ host with state := some { vote with secondsLeft := vote.secondsLeft - 1 }, ticks := vote.id :: host.ticks },[]) := by
  have silent : ¬ (0 < host.eligibleSlots.length ∧ host.eligibleSlots.length ≤ vote.votes.size) := by
    rw [empty]
    omega
  simp only [tick,running,Nat.ne_of_gt left,silent,ne_eq,not_true_eq_false,if_false]

/-- A start that succeeds leaves a vote without ballots whose countdown is pending. -/
theorem startVote_cases (host : Host) (question : String) (options : List String) (duration : Int) :
    host.startVote question options duration = (host,[]) ∨
      host.state = none ∧ ∃ vote : Vote, vote.id = host.nextVote ∧ vote.votes = ∅ ∧ vote.voters = ∅ ∧
        host.startVote question options duration =
          ({ host with state := some vote, ticks := host.nextVote :: host.ticks, nextVote := host.nextVote + 1 },
            [.started host.nextVote]) := by
  rw [startVote]
  split
  · exact .inl rfl
  next accepted =>
    simp only [not_or,Bool.not_eq_true,Option.isSome_eq_false_iff,Option.isNone_iff_eq_none] at accepted
    refine .inr ⟨accepted.1,?_⟩
    have positive : 0 < (max 1 (if duration = 0 then 20 else duration)).toNat := by omega
    refine ⟨⟨host.nextVote,question,options,∅,∅,(max 1 (if duration = 0 then 20 else duration)).toNat - 1⟩,rfl,rfl,rfl,?_⟩
    have begun := @tick_empty { host with
        state := some ⟨host.nextVote,question,options,∅,∅,(max 1 (if duration = 0 then 20 else duration)).toNat⟩,
        nextVote := host.nextVote + 1 } _ rfl positive rfl
    dsimp only at begun ⊢
    rw [begun]

/-- Whether a vote runs, as a number. -/
def active (host : Host) (id : Nat) : Nat := if host.state.map Vote.id = some id then 1 else 0

def created (host : Host) (id : Nat) : Nat := if id < host.nextVote then 1 else 0

end Host

def Event.starts (id : Nat) : Event → Bool
  | .started other => other == id
  | _ => false

def Event.ends (id : Nat) : Event → Bool
  | .ended other _ => other == id
  | _ => false

def Event.cancels (id : Nat) : Event → Bool
  | .cancelled other => other == id
  | _ => false

namespace Host

/-- What a step of the votes does. -/
structure Stepped (host : Host) (action : Action) (result : Host × List Event) : Prop where
  invariant : Invariant result.1
  next : host.nextVote ≤ result.1.nextVote
  origin : ∀ vote, result.1.state = some vote →
    (vote.id = host.nextVote ∧ vote.votes = ∅ ∧ vote.voters = ∅ ∧ action.ballot = none) ∨
    ∃ old, host.state = some old ∧ old.id = vote.id ∧ old.options = vote.options ∧
      (vote.votes,vote.voters) = host.effect old action
  settles : ∀ id, result.2.countP (Event.starts id) + host.active id =
    result.2.countP (Event.ends id) + result.2.countP (Event.cancels id) + result.1.active id
  starts : ∀ id, result.2.countP (Event.starts id) + host.created id = result.1.created id
  honest : ∀ id told, Event.ended id told ∈ result.2 → ∃ vote, host.state = some vote ∧ vote.id = id ∧ Honest vote told
  seconds : ∀ old vote, host.state = some old → result.1.state = some vote → old.id = vote.id →
    vote.secondsLeft + (if action = .tick vote.id then 1 else 0) ≤ old.secondsLeft

/-- The vote runs on as the action changed it, or none runs; the countdowns stand. -/
theorem Invariant.change {host after : Host} (invariant : Invariant host) {action : Action}
    (next : after.nextVote = host.nextVote) (ticks : after.ticks = host.ticks)
    (idle : host.state = none → after.state = none) (ordinary : ∀ id, action ≠ .tick id)
    (runs : ∀ old, host.state = some old → ∃ vote, after.state = some vote ∧ old.id = vote.id ∧ old.options = vote.options ∧
      vote.secondsLeft = old.secondsLeft ∧ (vote.votes,vote.voters) = host.effect old action ∧ vote.Valid ∧
      ∀ slot, (vote.votes.lookup slot).isSome = (vote.voters.lookup slot).isSome) : Stepped host action (after,[]) := by
  have from' (vote : Vote) (running : after.state = some vote) : ∃ old, host.state = some old ∧ old.id = vote.id ∧
      old.options = vote.options ∧ vote.secondsLeft = old.secondsLeft ∧ (vote.votes,vote.voters) = host.effect old action ∧
      vote.Valid ∧ ∀ slot, (vote.votes.lookup slot).isSome = (vote.voters.lookup slot).isSome := by
    cases before : host.state with
    | none =>
      rw [idle before] at running
      cases running
    | some old =>
      obtain ⟨found,here,rest⟩ := runs old before
      rw [running] at here
      cases here
      exact ⟨old,rfl,rest⟩
  have same (id : Nat) : after.active id = host.active id := by
    rw [active,active]
    cases before : host.state with
    | none => rw [idle before]
    | some old =>
      obtain ⟨vote,running,sameId,_⟩ := runs old before
      rw [running,Option.map_some,Option.map_some,sameId]
  constructor
  · constructor
    · intro vote running
      obtain ⟨old,before,sameId,_⟩ := from' vote running
      rw [← sameId,next]
      exact invariant.below old before
    · intro vote running
      obtain ⟨_,_,_,_,_,_,valid,_⟩ := from' vote running
      exact valid
    · intro vote running
      obtain ⟨_,_,_,_,_,_,_,voters⟩ := from' vote running
      exact voters
    · intro vote running
      obtain ⟨old,before,sameId,_⟩ := from' vote running
      rw [← sameId,ticks]
      exact invariant.pending old before
    · intro id member
      rw [ticks] at member
      rw [next]
      exact invariant.past id member
    · rw [ticks]
      exact invariant.once
  · exact Nat.le_of_eq next.symm
  · intro vote running
    obtain ⟨old,before,sameId,options,_,changed,_⟩ := from' vote running
    exact .inr ⟨old,before,sameId,options,changed⟩
  · intro id
    simp [same id]
  · intro id
    simp [created,next]
  · exact fun _ _ none => nomatch none
  · intro old vote before running sameId
    obtain ⟨other,here,_,_,seconds,_⟩ := from' vote running
    rw [before] at here
    cases here
    rw [if_neg (ordinary vote.id),seconds]
    exact Nat.le_refl _

theorem Invariant.cast {host : Host} (invariant : Invariant host) {action : Action} {slot index : Int}
    (casts : action.ballot = some (slot,index)) : Stepped host action (host.step action) := by
  have ordinary (id : Nat) : action ≠ .tick id := by
    rintro rfl
    cases casts
  rw [host.step_ballot casts]
  cases before : host.state with
  | none =>
    rw [cast_none before]
    exact invariant.change rfl rfl id ordinary fun old running => by rw [before] at running; cases running
  | some old =>
    rw [cast_some before]
    by_cases offers : old.Offers index
    · rw [if_pos offers]
      refine invariant.change rfl rfl (fun idle => by rw [before] at idle; cases idle) ordinary fun found running => ?_
      rw [before] at running
      cases running
      refine ⟨_,rfl,rfl,rfl,rfl,?_,?_,?_⟩
      · rw [effect,casts]
        exact (if_pos offers).symm
      · intro other chosen here
        rw [Table.lookup_insert_eq] at here
        split at here
        · cases here
          have low := offers.1
          have high := offers.2
          show index.toNat < old.options.length
          omega
        · exact invariant.valid old before other chosen here
      · intro other
        rw [Table.lookup_insert_eq,Table.lookup_insert_eq]
        split
        · rfl
        · exact invariant.voters old before other
    · rw [if_neg offers]
      refine invariant.change rfl rfl id ordinary fun found running => ?_
      rw [before] at running
      cases running
      refine ⟨old,before,rfl,rfl,rfl,?_,invariant.valid old before,invariant.voters old before⟩
      rw [effect,casts]
      exact (if_neg offers).symm

/-- An action that neither casts, starts, ticks nor ends anything. -/
theorem Invariant.aside {host after : Host} (invariant : Invariant host) {action : Action} (state : after.state = host.state)
    (next : after.nextVote = host.nextVote) (ticks : after.ticks = host.ticks) (casts : action.ballot = none)
    (ordinary : ∀ id, action ≠ .tick id) (stays : action.departure = none) : Stepped host action (after,[]) := by
  refine invariant.change next ticks (fun idle => state.trans idle) ordinary fun old running => ?_
  refine ⟨old,state.trans running,rfl,rfl,rfl,?_,invariant.valid old running,invariant.voters old running⟩
  rw [effect,casts,stays]

theorem Invariant.disconnects {host : Host} (invariant : Invariant host) (slot : Int) (token : Nat) :
    Stepped host (.disconnected slot token) (host.disconnected slot token,[]) := by
  have ordinary (id : Nat) : Action.disconnected slot token ≠ .tick id := by
    rintro ⟨⟩
  rw [Host.disconnected]
  cases before : host.state with
  | none => exact invariant.change rfl rfl id ordinary fun old running => by rw [before] at running; cases running
  | some old =>
    dsimp only
    split
    next here =>
      refine invariant.change rfl rfl (fun idle => by rw [before] at idle; cases idle) ordinary fun found running => ?_
      rw [before] at running
      cases running
      refine ⟨_,rfl,rfl,rfl,rfl,(if_pos here).symm,?_,?_⟩
      · intro other chosen held
        rw [Table.lookup_erase_eq] at held
        split at held
        · cases held
        · exact invariant.valid old before other chosen held
      · intro other
        rw [Table.lookup_erase_eq,Table.lookup_erase_eq]
        split
        · rfl
        · exact invariant.voters old before other
    next away =>
      refine invariant.change rfl rfl id ordinary fun found running => ?_
      rw [before] at running
      cases running
      exact ⟨old,before,rfl,rfl,rfl,(if_neg away).symm,invariant.valid old before,invariant.voters old before⟩

/-- The vote that runs is over; its countdown may have fired just now. -/
theorem Invariant.conclude {host after : Host} (invariant : Invariant host) {action : Action} {vote : Vote}
    (running : host.state = some vote) (idle : after.state = none) (next : after.nextVote = host.nextVote)
    (ticks : after.ticks.Sublist host.ticks) (event : Event) (closes : ∀ id, event.starts id = false ∧
      event.ends id = (vote.id == id) ∧ event.cancels id = false ∨ event.starts id = false ∧ event.ends id = false ∧
      event.cancels id = (vote.id == id)) (honest : ∀ id told, event = .ended id told → vote.id = id ∧ Honest vote told) :
    Stepped host action (after,[event]) := by
  have none (found : Vote) : after.state ≠ some found := by
    rw [idle]
    exact fun held => nomatch held
  constructor
  · exact ⟨fun found held => absurd held (none found),fun found held => absurd held (none found),
      fun found held => absurd held (none found),fun found held => absurd held (none found),
      fun id member => next ▸ invariant.past id (ticks.subset member),invariant.once.sublist ticks⟩
  · exact Nat.le_of_eq next.symm
  · exact fun found held => absurd held (none found)
  · intro id
    rw [active,active,running,idle,List.countP_singleton,List.countP_singleton,List.countP_singleton]
    rcases closes id with ⟨starts,ends,cancels⟩ | ⟨starts,ends,cancels⟩
    · by_cases same : vote.id = id <;> simp [starts,ends,cancels,same]
    · by_cases same : vote.id = id <;> simp [starts,ends,cancels,same]
  · intro id
    have starts : event.starts id = false := by rcases closes id with ⟨starts,_⟩ | ⟨starts,_⟩ <;> exact starts
    simp [starts,created,next]
  · intro id told member
    obtain ⟨same,fair⟩ := honest id told (List.mem_singleton.mp member).symm
    exact ⟨vote,running,same,fair⟩
  · exact fun _ found _ held => absurd held (none found)

theorem Invariant.finish {host cleared : Host} (invariant : Invariant host) {action : Action} {vote : Vote}
    (running : host.state = some vote) (next : cleared.nextVote = host.nextVote) (ticks : cleared.ticks.Sublist host.ticks)
    {ticking : Vote} (id : ticking.id = vote.id) (result : ticking.result = vote.result) :
    Stepped host action (cleared.finish ticking) := by
  rw [Host.finish]
  refine @Invariant.conclude host { cleared with state := none } invariant _ vote running rfl next ticks
    (.ended ticking.id ticking.result)
    (fun other => .inl ⟨rfl,by rw [← id]; rfl,rfl⟩) ?_
  rintro other told ⟨⟩
  exact ⟨id.symm,result ▸ Vote.honest (invariant.valid vote running)⟩

/-- A countdown that fires for a vote that is gone. -/
theorem Invariant.stale {host : Host} (invariant : Invariant host) {id : Nat}
    (gone : ∀ vote, host.state = some vote → vote.id ≠ id) :
    Stepped host (.tick id) ({ host with ticks := host.ticks.erase id },[]) := by
  constructor
  · refine { invariant with pending := fun vote running => ?_, past := fun other member => ?_, once := invariant.once.erase id }
    · rw [List.count_erase_of_ne (gone vote running)]
      exact invariant.pending vote running
    · exact invariant.past other (List.mem_of_mem_erase member)
  · exact Nat.le_refl _
  · exact fun vote running => .inr ⟨vote,running,rfl,rfl,rfl⟩
  · intro other
    simp [active]
  · intro other
    simp [created]
  · exact fun _ _ none => nomatch none
  · intro old vote before running _
    have same : old = vote := Option.some.inj (before.symm.trans running)
    have apart : ¬ (Action.tick id = .tick vote.id) := by
      rintro ⟨⟩
      exact gone vote running rfl
    rw [if_neg apart,same]
    exact Nat.le_refl _

theorem Invariant.tick {host : Host} (invariant : Invariant host) (id : Nat) (pending : id ∈ host.ticks) :
    Stepped host (.tick id) (({ host with ticks := host.ticks.erase id } : Host).tick id) := by
  by_cases here : ∃ vote, host.state = some vote ∧ vote.id = id
  · obtain ⟨vote,running,rfl⟩ := here
    have fires := ({ host with ticks := host.ticks.erase vote.id } : Host).tick_cases running
    rcases fires with ended | ⟨_,ticking,rfl,early⟩ | ⟨left,again⟩
    · rw [ended]
      exact @Invariant.finish host { host with ticks := host.ticks.erase vote.id } invariant _ vote running rfl
        List.erase_sublist _ rfl rfl
    · rw [early]
      exact @Invariant.finish host { host with ticks := host.ticks.erase vote.id } invariant _ vote running rfl
        List.erase_sublist _ rfl rfl
    · rw [again]
      have once : vote.id ∉ host.ticks.erase vote.id := List.Nodup.not_mem_erase invariant.once
      have only (found : Vote) (held : some { vote with secondsLeft := vote.secondsLeft - 1 } = some found) :
          found = { vote with secondsLeft := vote.secondsLeft - 1 } := (Option.some.inj held).symm
      constructor
      · constructor
        · intro found held
          rw [only found held]
          exact invariant.below vote running
        · intro found held
          rw [only found held]
          exact invariant.valid vote running
        · intro found held
          rw [only found held]
          exact invariant.voters vote running
        · intro found held
          rw [only found held]
          dsimp only
          rw [List.count_cons_self,List.count_eq_zero.mpr once]
        · intro other member
          rcases List.mem_cons.mp member with rfl | old
          · exact invariant.below vote running
          · exact invariant.past other (List.mem_of_mem_erase old)
        · exact List.nodup_cons.mpr ⟨once,invariant.once.erase _⟩
      · exact Nat.le_refl _
      · intro found held
        rw [only found held]
        exact .inr ⟨vote,running,rfl,rfl,rfl⟩
      · intro other
        simp [active,running]
      · intro other
        simp [created]
      · exact fun _ _ none => nomatch none
      · intro old found before held _
        rw [running] at before
        cases before
        rw [only found held,if_pos rfl]
        dsimp only
        omega
  · have gone : ∀ vote, host.state = some vote → vote.id ≠ id := fun vote running same => here ⟨vote,running,same⟩
    rw [({ host with ticks := host.ticks.erase id } : Host).tick_stale gone]
    exact invariant.stale gone

theorem Invariant.begins {host : Host} (invariant : Invariant host) (question : String) (options : List String) (duration : Int) :
    Stepped host (.start question options duration) (host.startVote question options duration) := by
  rcases host.startVote_cases question options duration with refused | ⟨idle,vote,id,votes,voters,begun⟩
  · rw [refused]
    exact invariant.aside rfl rfl rfl rfl (fun _ => by rintro ⟨⟩) rfl
  · rw [begun]
    have fresh : host.nextVote ∉ host.ticks := fun member => Nat.lt_irrefl _ (invariant.past _ member)
    have only (found : Vote) (held : some vote = some found) : found = vote := (Option.some.inj held).symm
    constructor
    · constructor
      · intro found held
        rw [only found held,id]
        exact Nat.lt_succ_self _
      · intro found held slot index here
        rw [only found held,votes] at here
        cases here
      · intro found held slot
        rw [only found held,votes,voters]
      · intro found held
        rw [only found held,id,List.count_cons_self,List.count_eq_zero.mpr fresh]
      · intro other member
        rcases List.mem_cons.mp member with rfl | old
        · exact Nat.lt_succ_self _
        · exact Nat.lt_succ_of_lt (invariant.past other old)
      · exact List.nodup_cons.mpr ⟨fresh,invariant.once⟩
    · exact Nat.le_succ _
    · intro found held
      rw [only found held]
      exact .inl ⟨id,votes,voters,rfl⟩
    · intro other
      by_cases same : host.nextVote = other
      · simp [active,idle,id,same,Event.starts,Event.ends,Event.cancels]
      · simp [active,idle,id,same,Event.starts,Event.ends,Event.cancels]
    · intro other
      rcases Nat.lt_trichotomy other host.nextVote with below | rfl | beyond
      · simp [created,Event.starts,below,Nat.lt_succ_of_lt below,Nat.ne_of_gt below]
      · simp [created,Event.starts]
      · have later : ¬ other < host.nextVote + 1 := by omega
        simp [created,Event.starts,later,Nat.not_lt_of_gt beyond,Nat.ne_of_lt beyond]
    · intro other told member
      cases List.mem_singleton.mp member
    · intro old found before
      rw [idle] at before
      cases before

theorem Invariant.step {host : Host} (invariant : Invariant host) (action : Action) : Stepped host action (host.step action) := by
  cases casts : action.ballot with
  | some ballot => exact invariant.cast casts
  | none =>
    cases action with
    | start question options duration => exact invariant.begins question options duration
    | cast slot index => cases casts
    | chat slot text =>
      rw [host.step_chat_ordinary casts]
      exact invariant.aside rfl rfl rfl casts (fun _ => by rintro ⟨⟩) rfl
    | disconnected slot token => exact invariant.disconnects slot token
    | tick id =>
      simp only [Host.step]
      split
      next pending => exact invariant.tick id pending
      next absent =>
        have gone : ∀ vote, host.state = some vote → vote.id ≠ id := by
          rintro vote running rfl
          have one := invariant.pending vote running
          rw [List.count_eq_zero.mpr absent] at one
          cases one
        have same := invariant.stale gone
        rw [List.erase_of_not_mem absent] at same
        exact same
    | cancel =>
      simp only [Host.step,Host.cancel]
      cases running : host.state with
      | none => exact invariant.aside rfl rfl rfl casts (fun _ => by rintro ⟨⟩) rfl
      | some vote =>
        dsimp only
        exact @Invariant.conclude host { host with state := none } invariant _ vote running rfl rfl (List.Sublist.refl _)
          (.cancelled vote.id) (fun _ => .inr ⟨rfl,rfl,rfl⟩)
          fun _ _ different => nomatch different
    | join slot bot => exact invariant.aside rfl rfl rfl casts (fun _ => by rintro ⟨⟩) rfl
    | leave slot => exact invariant.aside rfl rfl rfl casts (fun _ => by rintro ⟨⟩) rfl

theorem Invariant.start : Invariant Host.start where
  below _ running := nomatch running
  valid _ running := nomatch running
  voters _ running := nomatch running
  pending _ running := nomatch running
  past _ member := nomatch member
  once := List.nodup_nil

theorem run_snoc (host : Host) (actions : List Action) (last : Action) :
    host.run (actions ++ [last]) =
      (((host.run actions).1.step last).1,(host.run actions).2 ++ ((host.run actions).1.step last).2) := by
  induction actions generalizing host with
  | nil => simp [run]
  | cons action rest ih => simp [run,ih]

theorem run_fst_append (host : Host) (before after : List Action) :
    (host.run (before ++ after)).1 = ((host.run before).1.run after).1 := by
  induction before generalizing host with
  | nil => rfl
  | cons action rest ih => simp [Host.run,ih]

theorem Invariant.run {host : Host} (invariant : Invariant host) (actions : List Action) : Invariant (host.run actions).1 := by
  induction actions generalizing host with
  | nil => exact invariant
  | cons action rest ih => exact ih (invariant.step action).invariant

theorem Invariant.run_next {host : Host} (invariant : Invariant host) (actions : List Action) :
    host.nextVote ≤ (host.run actions).1.nextVote := by
  induction actions generalizing host with
  | nil => exact Nat.le_refl _
  | cons action rest ih => exact (invariant.step action).next.trans (ih (invariant.step action).invariant)

/-- While a vote runs, every time its countdown fires takes one of its seconds. -/
theorem Invariant.countdown {host : Host} (invariant : Invariant host) {vote after : Vote} (running : host.state = some vote)
    (later : List Action) (runs : (host.run later).1.state = some after) (same : after.id = vote.id) :
    after.secondsLeft + later.count (.tick vote.id) ≤ vote.secondsLeft := by
  induction later using List.reverseRecOn generalizing after with
  | nil =>
    have here : vote = after := Option.some.inj (running.symm.trans runs)
    rw [here,List.count_nil]
    exact Nat.le_refl _
  | append_singleton before last ih =>
    rw [run_snoc] at runs
    have step := (invariant.run before).step last
    rcases step.origin after runs with ⟨new,_⟩ | ⟨old,middle,sameId,_⟩
    · have low := invariant.below vote running
      have grown := invariant.run_next before
      omega
    · have kept := ih middle (sameId.trans same)
      have taken := step.seconds old after middle runs sameId
      rw [List.count_append,List.count_singleton]
      rw [← same] at kept ⊢
      by_cases fires : last = .tick after.id
      · simp only [fires,if_true,beq_self_eq_true] at taken ⊢
        omega
      · simp only [fires,if_false,beq_iff_eq] at taken ⊢
        omega

/-- A ballot was cast while the vote ran, and since then its slot has not voted for another option and
the client that cast it has not left. -/
def Stands (actions : List Action) (vote : Vote) (slot : Int) (choice token : Nat) : Prop :=
  ∃ before casting after, actions = before ++ casting :: after ∧
    (start.run before).1.state.map Vote.id = some vote.id ∧ casting.ballot = some (slot,(choice : Int)) ∧
    choice < vote.options.length ∧ token = (start.run before).1.generation slot ∧
    (∀ later ∈ after, later.departure ≠ some (slot,token)) ∧
    ∀ later ∈ after, ∀ index, later.ballot = some (slot,index) → ¬ vote.Offers index

theorem stands_snoc (actions : List Action) (last : Action) (vote : Vote) (slot : Int) (choice token : Nat) :
    Stands (actions ++ [last]) vote slot choice token ↔
      ((start.run actions).1.state.map Vote.id = some vote.id ∧ last.ballot = some (slot,(choice : Int)) ∧
        choice < vote.options.length ∧ token = (start.run actions).1.generation slot) ∨
      (Stands actions vote slot choice token ∧ last.departure ≠ some (slot,token) ∧
        ∀ index, last.ballot = some (slot,index) → ¬ vote.Offers index) := by
  constructor
  · rintro ⟨before,casting,after,split,ran,casts,within,minted,stayed,silent⟩
    rcases List.eq_nil_or_concat' after with rfl | ⟨rest,final,rfl⟩
    · obtain ⟨rfl,rfl⟩ := List.append_inj' split rfl |>.imp id List.singleton_inj.mp
      exact .inl ⟨ran,casts,within,minted⟩
    · have same : actions ++ [last] = (before ++ casting :: rest) ++ [final] := by rw [split]; simp
      obtain ⟨rfl,tail⟩ := List.append_inj' same rfl
      obtain rfl := List.singleton_inj.mp tail
      refine .inr ⟨⟨before,casting,rest,rfl,ran,casts,within,minted,?_,?_⟩,?_,?_⟩
      · exact fun later member => stayed later (List.mem_append_left _ member)
      · exact fun later member => silent later (List.mem_append_left _ member)
      · exact stayed last (by simp)
      · exact silent last (by simp)
  · rintro (⟨ran,casts,within,minted⟩ | ⟨⟨before,casting,after,rfl,ran,casts,within,minted,stayed,silent⟩,stays,quiet⟩)
    · exact ⟨actions,last,[],rfl,ran,casts,within,minted,(fun _ none => nomatch none),fun _ none => nomatch none⟩
    · refine ⟨before,casting,after ++ [last],by simp,ran,casts,within,minted,?_,?_⟩
      · intro later member
        rcases List.mem_append.mp member with old | new
        · exact stayed later old
        · rw [List.mem_singleton.mp new]
          exact stays
      · intro later member
        rcases List.mem_append.mp member with old | new
        · exact silent later old
        · rw [List.mem_singleton.mp new]
          exact quiet

/-- What an action does to the ballot of a slot. -/
theorem effect_ballot (host : Host) (vote : Vote) (action : Action) (slot : Int) (choice token : Nat) :
    (host.effect vote action).1.lookup slot = some choice ∧ (host.effect vote action).2.lookup slot = some token ↔
      (action.ballot = some (slot,(choice : Int)) ∧ choice < vote.options.length ∧ token = host.generation slot) ∨
      ((vote.votes.lookup slot = some choice ∧ vote.voters.lookup slot = some token) ∧
        action.departure ≠ some (slot,token) ∧ ∀ index, action.ballot = some (slot,index) → ¬ vote.Offers index) := by
  cases casts : action.ballot with
  | some ballot =>
    obtain ⟨place,index⟩ := ballot
    have stays : action.departure = none := by
      cases action with
      | disconnected => cases casts
      | _ => rfl
    simp only [effect,casts]
    by_cases offers : vote.Offers index
    · simp only [if_pos offers,Table.lookup_insert_eq]
      by_cases here : slot = place
      · subst here
        simp only [if_true,Option.some.injEq,Prod.mk.injEq,true_and,stays,ne_eq,reduceCtorEq,not_false_eq_true]
        obtain ⟨low,high⟩ := offers
        constructor
        · rintro ⟨rfl,rfl⟩
          exact .inl ⟨by omega,by omega,rfl⟩
        · rintro (⟨rfl,_,rfl⟩ | ⟨_,silent⟩)
          · exact ⟨Int.toNat_natCast choice,rfl⟩
          · exact absurd ⟨low,high⟩ (silent index rfl)
      · have away : ¬ place = slot := fun same => here same.symm
        simp [here,away,stays]
    · simp only [if_neg offers]
      constructor
      · intro held
        refine .inr ⟨held,by rw [stays]; exact nofun,?_⟩
        rintro other ⟨⟩
        exact offers
      · rintro (⟨⟨⟩,within,_⟩ | ⟨held,_⟩)
        · exact absurd ⟨Int.natCast_nonneg choice,Int.ofNat_lt.mpr within⟩ offers
        · exact held
  | none =>
    cases leaves : action.departure with
    | none => simp [effect,casts,leaves]
    | some departure =>
      obtain ⟨place,client⟩ := departure
      simp only [effect,casts,leaves]
      by_cases voted : vote.voters.lookup place = some client
      · simp only [if_pos voted,Table.lookup_erase_eq]
        by_cases here : slot = place
        · subst here
          simp only [voted,if_true,reduceCtorEq,false_and,false_or,Option.some.injEq,Prod.mk.injEq,ne_eq,true_and,false_iff]
          rintro ⟨⟨_,rfl⟩,stays,_⟩
          exact stays rfl
        · have away : ¬ place = slot := fun same => here same.symm
          simp [here,away]
      · simp only [if_neg voted]
        constructor
        · refine fun held => .inr ⟨held,?_,nofun⟩
          rintro ⟨⟩
          exact voted held.2
        · rintro (⟨⟨⟩,_⟩ | ⟨held,_⟩)
          exact held

/-- The ballots of the running vote are those that stand. -/
theorem ballots_stand (actions : List Action) {vote : Vote} (running : (start.run actions).1.state = some vote)
    (slot : Int) (choice token : Nat) :
    vote.votes.lookup slot = some choice ∧ vote.voters.lookup slot = some token ↔ Stands actions vote slot choice token := by
  induction actions using List.reverseRecOn generalizing vote with
  | nil => cases running
  | append_singleton before last ih =>
    rw [run_snoc] at running
    have invariant := Invariant.start.run before
    rw [stands_snoc]
    rcases (invariant.step last).origin vote running with ⟨new,votes,voters,silent⟩ | ⟨old,middle,sameId,options,changed⟩
    · constructor
      · rw [votes]
        rintro ⟨⟨⟩,_⟩
      · rintro (⟨_,casts,_⟩ | ⟨⟨early,casting,after,rfl,ran,_⟩,_⟩)
        · rw [silent] at casts
          cases casts
        · -- an earlier vote has an earlier number
          obtain ⟨first,there,same⟩ := Option.map_eq_some_iff.mp ran
          have low := (Invariant.start.run early).below first there
          have grown := (Invariant.start.run early).run_next (casting :: after)
          rw [← run_fst_append] at grown
          omega
    · have ballot := effect_ballot (start.run before).1 old last slot choice token
      rw [← changed,ih middle] at ballot
      have stands : Stands before old slot choice token ↔ Stands before vote slot choice token := by
        simp only [Stands,Vote.Offers,sameId,options]
      have ran : (start.run before).1.state.map Vote.id = some vote.id := by
        rw [middle,Option.map_some,sameId]
      rw [stands] at ballot
      simp only [Vote.Offers,options] at ballot
      simp only [ran,true_and,Vote.Offers]
      exact ballot

/-- A result that is told counts the ballots that stand, and its winner has more of them than every other option. -/
theorem results_told (actions : List Action) (last : Action) {id : Nat} {told : Result}
    (ends : Event.ended id told ∈ ((start.run actions).1.step last).2) :
    ∃ vote, (start.run actions).1.state = some vote ∧ vote.id = id ∧ Honest vote told ∧
      ∀ index, supporters vote index = {slot | ∃ token, Stands actions vote slot index token} := by
  have invariant := Invariant.start.run actions
  obtain ⟨vote,running,same,honest⟩ := (invariant.step last).honest id told ends
  refine ⟨vote,running,same,honest,fun index => Set.ext fun slot => ?_⟩
  constructor
  · intro (held : vote.votes.lookup slot = some index)
    have known := invariant.voters vote running slot
    rw [held] at known
    obtain ⟨token,voter⟩ := Option.isSome_iff_exists.mp known.symm
    exact ⟨token,(ballots_stand actions running slot index token).mp ⟨held,voter⟩⟩
  · rintro ⟨token,stands⟩
    exact ((ballots_stand actions running slot index token).mpr stands).1

theorem sole_ballot :
    let actions := [Action.join 1 false,.start "map" ["stay","go"] 5,.cast 1 0]
    ∃ vote, (start.run actions).1.state = some vote ∧ vote.id = 0 ∧ Honest vote ⟨some 0,[1,0],1⟩ ∧
      ∀ index, supporters vote index = {slot | ∃ token, Stands actions vote slot index token} :=
  results_told _ (.tick 0) (List.mem_singleton.mpr rfl)

end Host

end S2Script.ChatVotes
