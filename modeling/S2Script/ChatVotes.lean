import S2Script.Liveness
import S2Script.Table
import S2Script.VersionRanges

/-! Votes in chat, one at a time in a context. A client may vote again until the countdown is over or
everyone has voted; what counts is the last ballot of a slot, unless who cast it has left. -/
namespace S2Script.ChatVotes

open Liveness (LiveTable)

/-- A vote that is running. -/
structure Vote where
  id : Nat
  question : String
  options : List String
  votes : Table Int Nat
  voters : Table Int Nat
  secondsLeft : Nat

/-- What `onEnd` is given. -/
structure Result where
  winner : Option Nat
  counts : List Nat
  total : Nat

/-- `__s2_vote_counts`. -/
def count (options : Nat) (votes : List Nat) : List Nat × Nat :=
  votes.foldl (fun tally index =>
    if index < tally.1.length then (tally.1.modify index (· + 1),tally.2 + 1) else tally) (List.replicate options 0,0)

/-- The best so far, who has it, and whether it is shared. -/
structure Lead where
  winner : Option Nat
  best : Int
  tie : Bool

/-- The loop over the counts, from the option it has come to. -/
def findLead : List Nat → Nat → Lead → Lead
  | [], _, lead => lead
  | found :: rest, index, lead =>
    findLead rest (index + 1)
      (if lead.best < found then ⟨some index,found,false⟩
      else if found = lead.best then { lead with tie := true }
      else lead)

/-- The result of a vote: without ballots, or with a tie, nobody wins. -/
def Vote.result (vote : Vote) : Result :=
  let counted := count vote.options.length vote.votes.values
  let lead := findLead counted.1 0 ⟨none,-1,false⟩
  { winner := if counted.2 = 0 ∨ lead.tie = true then none else lead.winner, counts := counted.1, total := counted.2 }

inductive Event
  | started (id : Nat)
  | ended (id : Nat) (result : Result)
  | cancelled (id : Nat)

/-- A context's vote, the countdowns that are pending, and who is connected. -/
structure Host where
  state : Option Vote
  ticks : List Nat
  nextVote : Nat
  connections : LiveTable Int Unit
  bots : Int → Bool

namespace Host

def start : Host := ⟨none,[],0,.new 1,fun _ => false⟩

def generation (host : Host) (slot : Int) : Nat := (host.connections.idOf slot).getD 0

/-- `__s2_vote_eligibleSlots`. -/
def eligibleSlots (host : Host) : List Nat :=
  (List.range 64).filter fun slot => (host.connections.idOf slot).isSome && !host.bots slot

/-- `__s2_vote_end` of the running vote. -/
def finish (host : Host) (vote : Vote) : Host × List Event :=
  ({ host with state := none },[.ended vote.id vote.result])

/-- `__s2_vote_tick` of a vote, by its identity. -/
def tick (host : Host) (id : Nat) : Host × List Event :=
  match host.state with
  | none => (host,[])
  | some vote =>
    if vote.id ≠ id then (host,[])
    else if vote.secondsLeft = 0 then host.finish vote
    else
      let vote := { vote with secondsLeft := vote.secondsLeft - 1 }
      let eligible := host.eligibleSlots.length
      if 0 < eligible ∧ eligible ≤ vote.votes.size then host.finish vote
      else ({ host with state := some vote, ticks := id :: host.ticks },[])

/-- `Vote.start`; a countdown of zero stands for the default. -/
def startVote (host : Host) (question : String) (options : List String) (duration : Int) : Host × List Event :=
  if host.state.isSome ∨ question = "" ∨ options.length < 2 then (host,[])
  else
    let seconds := max 1 (if duration = 0 then 20 else duration)
    let begun := ({ host with state := some ⟨host.nextVote,question,options,∅,∅,seconds.toNat⟩,
                              nextVote := host.nextVote + 1 }).tick host.nextVote
    (begun.1,.started host.nextVote :: begun.2)

/-- `__s2_vote_cast`. -/
def cast (host : Host) (slot index : Int) : Host :=
  match host.state with
  | none => host
  | some vote =>
    if index < 0 ∨ vote.options.length ≤ index then host
    else
      { host with state := some { vote with
          votes := vote.votes.insert slot index.toNat, voters := vote.voters.insert slot (host.generation slot) } }

/-- `__s2_vote_castFromChat`: one digit counts from one. -/
def castFromChat (host : Host) (slot : Int) (text : List Char) : Host :=
  match VersionRanges.trim text with
  | [digit] =>
    if digit.isDigit && digit != '0' then host.cast slot ((digit.toNat : Int) - 49) else host
  | _ => host

/-- A disconnect takes the ballot of the client that left. -/
def disconnected (host : Host) (slot : Int) (token : Nat) : Host :=
  match host.state with
  | none => host
  | some vote =>
    if vote.voters.lookup slot = some token then
      { host with state := some { vote with votes := vote.votes.erase slot, voters := vote.voters.erase slot } }
    else host

/-- `Vote.cancel`. -/
def cancel (host : Host) : Host × List Event :=
  match host.state with
  | none => (host,[])
  | some vote => ({ host with state := none },[.cancelled vote.id])

end Host

inductive Action
  | start (question : String) (options : List String) (duration : Int)
  | cast (slot index : Int)
  | chat (slot : Int) (text : List Char)
  | disconnected (slot : Int) (token : Nat)
  | tick (id : Nat)
  | cancel
  | join (slot : Int) (bot : Bool)
  | leave (slot : Int)
  deriving DecidableEq

namespace Host

/-- A countdown fires if it is pending. -/
def step (host : Host) : Action → Host × List Event
  | .start question options duration => host.startVote question options duration
  | .cast slot index => (host.cast slot index,[])
  | .chat slot text => (host.castFromChat slot text,[])
  | .disconnected slot token => (host.disconnected slot token,[])
  | .tick id => if id ∈ host.ticks then ({ host with ticks := host.ticks.erase id }).tick id else (host,[])
  | .cancel => host.cancel
  | .join slot bot =>
    ({ host with connections := (host.connections.insert slot ()).1, bots := Function.update host.bots slot bot },[])
  | .leave slot => ({ host with connections := host.connections.remove slot },[])

def run (host : Host) : List Action → Host × List Event
  | [] => (host,[])
  | action :: rest =>
    let stepped := host.step action
    let after := run stepped.1 rest
    (after.1,stepped.2 ++ after.2)

end Host

section Counting

theorem count_spec (options : Nat) (votes : List Nat) :
    (count options votes).1.length = options ∧ (∀ index < options, (count options votes).1[index]? = some (votes.count index)) ∧
      (count options votes).2 = votes.countP (· < options) := by
  suffices general : ∀ (tally : List Nat × Nat), tally.1.length = options →
      let counted := votes.foldl (fun tally index =>
        if index < tally.1.length then (tally.1.modify index (· + 1),tally.2 + 1) else tally) tally
      counted.1.length = options ∧
        (∀ index < options, counted.1[index]? = (tally.1[index]?).map (· + votes.count index)) ∧
        counted.2 = tally.2 + votes.countP (· < options) by
    obtain ⟨long,each,total⟩ := general (List.replicate options 0,0) List.length_replicate
    refine ⟨long,fun index within => ?_,total.trans (Nat.zero_add _)⟩
    rw [count,each index within,List.getElem?_replicate,if_pos within]
    simp
  induction votes with
  | nil => exact fun tally long => ⟨long,fun index _ => by simp,by simp⟩
  | cons vote rest ih =>
    intro tally long
    simp only [List.foldl_cons]
    by_cases valid : vote < options
    · obtain ⟨kept,each,total⟩ := ih (tally.1.modify vote (· + 1),tally.2 + 1) (by simpa using long)
      rw [long,if_pos valid]
      refine ⟨kept,fun index within => ?_,?_⟩
      · rw [each index within,List.getElem?_modify]
        by_cases here : vote = index
        · subst here
          cases tally.1[vote]? with
          | none => rfl
          | some value =>
            simp
            omega
        · simp [here]
      · rw [total,List.countP_cons_of_pos (by simpa using valid)]
        omega
    · obtain ⟨kept,each,total⟩ := ih tally long
      rw [long,if_neg valid]
      refine ⟨kept,fun index within => ?_,?_⟩
      · have apart : vote ≠ index := by omega
        rw [each index within,List.count_cons_of_ne apart]
      · rw [total,List.countP_cons_of_neg (by simpa using valid)]

/-- A lead stands for the counts that were passed: nobody is above the best, the winner is at it, and alone unless
there is a tie. -/
structure Leads (counts : List Nat) (lead : Lead) : Prop where
  above : ∀ found ∈ counts, (found : Int) ≤ lead.best
  winner : ∀ index : Nat, lead.winner = some index → counts[index]?.map Int.ofNat = some lead.best
  alone : lead.tie = false → ∀ index other : Nat, lead.winner = some index → counts[other]?.map Int.ofNat = some lead.best → other = index
  shared : lead.tie = true → ∃ index other : Nat, index ≠ other ∧ counts[index]?.map Int.ofNat = some lead.best ∧
    counts[other]?.map Int.ofNat = some lead.best
  won : counts ≠ [] → lead.winner.isSome = true
  bottom : counts = [] → lead.best = -1

theorem Leads.push {counts : List Nat} {lead : Lead} (leads : Leads counts lead) (found : Nat) :
    Leads (counts ++ [found]) (if lead.best < found then ⟨some counts.length,found,false⟩
      else if found = lead.best then { lead with tie := true } else lead) := by
  have old {index : Nat} {value : Int} (here : counts[index]?.map Int.ofNat = some value) :
      (counts ++ [found])[index]?.map Int.ofNat = some value := by
    obtain ⟨kept,at',_⟩ := Option.map_eq_some_iff.mp here
    rw [List.getElem?_append_left (List.getElem?_eq_some_iff.mp at').1]
    exact here
  have last : (counts ++ [found])[counts.length]?.map Int.ofNat = some (found : Int) := by simp
  have cases' {index : Nat} {value : Int} (here : (counts ++ [found])[index]?.map Int.ofNat = some value) :
      counts[index]?.map Int.ofNat = some value ∨ index = counts.length ∧ value = found := by
    rcases Nat.lt_trichotomy index counts.length with below | rfl | beyond
    · rw [List.getElem?_append_left below] at here
      exact .inl here
    · rw [last] at here
      exact .inr ⟨rfl,(Option.some.inj here).symm⟩
    · rw [List.getElem?_append_right (Nat.le_of_lt beyond)] at here
      have out : [found][index - counts.length]? = none := by
        rw [List.getElem?_eq_none_iff]
        simp
        omega
      rw [out] at here
      cases here
  have bounded {index : Nat} {value : Int} (here : counts[index]?.map Int.ofNat = some value) : value ≤ lead.best := by
    obtain ⟨kept,at',rfl⟩ := Option.map_eq_some_iff.mp here
    exact leads.above kept (List.mem_of_getElem? at')
  have within {index : Nat} {value : Int} (here : counts[index]?.map Int.ofNat = some value) : index < counts.length := by
    obtain ⟨kept,at',_⟩ := Option.map_eq_some_iff.mp here
    exact (List.getElem?_eq_some_iff.mp at').1
  split
  next higher =>
    constructor
    · intro other member
      rcases List.mem_append.mp member with before | new
      · exact (leads.above other before).trans (Int.le_of_lt higher)
      · simp [List.mem_singleton.mp new]
    · rintro index ⟨⟩
      exact last
    · rintro - index other ⟨⟩ top
      rcases cases' top with before | ⟨here,_⟩
      · have low : (found : Int) ≤ lead.best := bounded before
        omega
      · exact here
    · exact fun tied => nomatch tied
    · exact fun _ => rfl
    · exact fun empty => absurd empty (by simp)
  next lower =>
    have nonempty : counts ≠ [] := by
      intro empty
      have low := leads.bottom empty
      omega
    split
    next level =>
      constructor
      · intro other member
        rcases List.mem_append.mp member with before | new
        · exact leads.above other before
        · simp [List.mem_singleton.mp new,level]
      · exact fun index won => old (leads.winner index won)
      · exact fun tied => nomatch tied
      · intro _
        obtain ⟨index,won⟩ := Option.isSome_iff_exists.mp (leads.won nonempty)
        have top := leads.winner index won
        exact ⟨index,counts.length,Nat.ne_of_lt (within top),old top,by rw [last,level]⟩
      · exact fun _ => leads.won nonempty
      · exact fun empty => absurd empty (by simp)
    next off =>
      have below : (found : Int) < lead.best := by omega
      constructor
      · intro other member
        rcases List.mem_append.mp member with before | new
        · exact leads.above other before
        · simp [List.mem_singleton.mp new,Int.le_of_lt below]
      · exact fun index won => old (leads.winner index won)
      · intro alone index other won top
        rcases cases' top with before | ⟨_,same⟩
        · exact leads.alone alone index other won before
        · omega
      · intro tied
        obtain ⟨index,other,different,one,two⟩ := leads.shared tied
        exact ⟨index,other,different,old one,old two⟩
      · exact fun _ => leads.won nonempty
      · exact fun empty => absurd empty (by simp)

theorem findLead_leads (rest counts : List Nat) (lead : Lead) (leads : Leads counts lead) :
    Leads (counts ++ rest) (findLead rest counts.length lead) := by
  induction rest generalizing counts lead with
  | nil => simpa [findLead] using leads
  | cons found rest ih =>
    have next := ih (counts ++ [found]) _ (leads.push found)
    rw [List.append_assoc,List.length_append] at next
    exact next

theorem findLead_start (counts : List Nat) : Leads counts (findLead counts 0 ⟨none,-1,false⟩) := by
  refine findLead_leads counts [] ⟨none,-1,false⟩ ⟨?_,?_,?_,?_,?_,?_⟩
  · exact fun _ none => nomatch none
  · exact fun _ none => nomatch none
  · exact fun _ _ _ none => nomatch none
  · exact fun tied => nomatch tied
  · exact fun nonempty => absurd rfl nonempty
  · exact fun _ => rfl

end Counting

/-- The slots whose ballot is for an option. -/
def supporters (vote : Vote) (index : Nat) : Set Int := {slot | vote.votes.lookup slot = some index}

/-- A table holds a value for as many keys as the value stands in it. -/
theorem ncard_lookup {K V : Type} [DecidableEq K] [DecidableEq V] (table : Table K V) (value : V) :
    Set.ncard {key | table.lookup key = some value} = table.values.count value := by
  have keys : {key | table.lookup key = some value} =
      (((table.entries.filter fun entry => entry.2 == value).map Sigma.fst).toFinset : Set K) := by
    ext key
    simp only [Set.mem_ofPred_eq,List.coe_toFinset,List.mem_map,List.mem_filter,beq_iff_eq,Table.lookup_iff_entry]
    constructor
    · exact fun entry => ⟨⟨key,value⟩,⟨entry,rfl⟩,rfl⟩
    · rintro ⟨⟨found,held⟩,⟨entry,rfl⟩,rfl⟩
      exact entry
  have once : ((table.entries.filter fun entry => entry.2 == value).map Sigma.fst).Nodup :=
    table.nodupKeys.sublist List.filter_sublist
  rw [keys,Set.ncard_coe_finset,List.toFinset_card_of_nodup once,List.length_map,Table.values,List.count_eq_countP,
    List.countP_map,List.countP_eq_length_filter]
  rfl

/-- What a result has to say of the ballots: how many slots support each option, how many ballots there are, and
as the winner the one option that has more than every other. -/
structure Honest (vote : Vote) (result : Result) : Prop where
  counts : ∀ index < vote.options.length, result.counts[index]? = some (supporters vote index).ncard
  length : result.counts.length = vote.options.length
  total : result.total = vote.votes.size
  winner : ∀ index, result.winner = some index ↔ index < vote.options.length ∧ 0 < (supporters vote index).ncard ∧
    ∀ other < vote.options.length, other ≠ index → (supporters vote other).ncard < (supporters vote index).ncard

/-- Ballots are for options there are. -/
def Vote.Valid (vote : Vote) : Prop := ∀ slot index, vote.votes.lookup slot = some index → index < vote.options.length

theorem Vote.honest {vote : Vote} (valid : vote.Valid) : Honest vote vote.result := by
  obtain ⟨long,each,all⟩ := count_spec vote.options.length vote.votes.values
  have counted (index : Nat) (within : index < vote.options.length) :
      (count vote.options.length vote.votes.values).1[index]? = some (supporters vote index).ncard := by
    rw [each index within,supporters,ncard_lookup]
  have total : (count vote.options.length vote.votes.values).2 = vote.votes.size := by
    rw [all,List.countP_eq_length.mpr]
    · exact List.length_map _
    · intro index member
      obtain ⟨slot,here⟩ := (Table.mem_values vote.votes index).mp member
      exact decide_eq_true (valid slot index here)
  have leads := findLead_start (count vote.options.length vote.votes.values).1
  have least {index : Nat} (within : index < vote.options.length) (ballots : 0 < (supporters vote index).ncard) :
      (count vote.options.length vote.votes.values).2 ≠ 0 := by
    rw [total]
    intro none
    obtain ⟨slot,here⟩ := Set.nonempty_of_ncard_ne_zero (Nat.pos_iff_ne_zero.mp ballots)
    have member := Table.mem_of_lookup here
    rw [Table.size,List.length_eq_zero_iff] at none
    rw [← AList.lookup_isSome,AList.lookup,none] at member
    cases member
  have at' {index : Nat} {value : Int}
      (here : (count vote.options.length vote.votes.values).1[index]?.map Int.ofNat = some value) :
      index < vote.options.length ∧ value = (supporters vote index).ncard := by
    obtain ⟨kept,found,rfl⟩ := Option.map_eq_some_iff.mp here
    have within : index < vote.options.length := long ▸ (List.getElem?_eq_some_iff.mp found).1
    rw [counted index within] at found
    exact ⟨within,congrArg Int.ofNat (Option.some.inj found).symm⟩
  have below (other : Nat) (within : other < vote.options.length) :
      ((supporters vote other).ncard : Int) ≤ (findLead (count vote.options.length vote.votes.values).1 0 ⟨none,-1,false⟩).best :=
    leads.above _ (List.mem_of_getElem? (counted other within))
  refine ⟨counted,long,total,fun index => ?_⟩
  simp only [Vote.result]
  constructor
  · intro won
    split at won
    · cases won
    next settled =>
      simp only [not_or,Bool.not_eq_true] at settled
      obtain ⟨within,best⟩ := at' (leads.winner index won)
      have more (other : Nat) (there : other < vote.options.length) (different : other ≠ index) :
          (supporters vote other).ncard < (supporters vote index).ncard := by
        have low := below other there
        have apart : ((supporters vote other).ncard : Int) ≠
            (findLead (count vote.options.length vote.votes.values).1 0 ⟨none,-1,false⟩).best := by
          intro same
          apply different
          apply leads.alone settled.2 index other won
          rw [counted other there,← same]
          rfl
        omega
      refine ⟨within,?_,more⟩
      -- some ballot there is, and no option has more than the winner's
      obtain ⟨slot,entry⟩ : ∃ slot, slot ∈ vote.votes.entries := by
        cases held : vote.votes.entries with
        | nil =>
          refine absurd ?_ settled.1
          rw [total,Table.size,held]
          rfl
        | cons entry rest => exact ⟨entry,List.mem_cons_self⟩
      have here : vote.votes.lookup slot.1 = some slot.2 := (Table.lookup_iff_entry _ _ _).mpr entry
      have one : 0 < (supporters vote slot.2).ncard := by
        rw [supporters,ncard_lookup,List.count_pos_iff]
        exact (Table.mem_values _ _).mpr ⟨_,here⟩
      by_cases same : slot.2 = index
      · rwa [same] at one
      · exact Nat.lt_trans one (more slot.2 (valid _ _ here) same)
  · rintro ⟨within,ballots,more⟩
    have someone : (count vote.options.length vote.votes.values).1 ≠ [] := by
      intro empty
      rw [empty] at long
      simp only [List.length_nil] at long
      omega
    obtain ⟨leader,won⟩ := Option.isSome_iff_exists.mp (leads.won someone)
    obtain ⟨there,best⟩ := at' (leads.winner leader won)
    have first : leader = index := by
      by_contra different
      have less := more leader there different
      have low := below index within
      omega
    subst first
    have alone : (findLead (count vote.options.length vote.votes.values).1 0 ⟨none,-1,false⟩).tie = false := by
      rw [Bool.eq_false_iff]
      intro tied
      obtain ⟨one,two,different,first,second⟩ := leads.shared tied
      obtain ⟨withinOne,bestOne⟩ := at' first
      obtain ⟨withinTwo,bestTwo⟩ := at' second
      by_cases same : one = leader
      · have less := more two withinTwo fun equal => different (same.trans equal.symm)
        omega
      · have less := more one withinOne same
        omega
    rw [if_neg (by simp [alone,least within ballots])]
    exact won

end S2Script.ChatVotes
