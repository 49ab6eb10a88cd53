import S2Script.EntityVisibilitySafety

/-! What a snapshot shows. In every run, a client whose layout is known is sent an entity just
when the engine sends it, every live rule for the entity admits the client, and no plugin that
was asked hid it. -/
namespace S2Script.EntityVisibility

namespace Shim

variable {shim later : Shim} {resolves : Int → Int → Bool}

/-- What a snapshot may do to the shim: drop entries that no longer stand, or give up. -/
structure Keeps (resolves : Int → Int → Bool) (shim later : Shim) : Prop where
  installed : later.hookInstalled = shim.hookInstalled
  fewer : ∀ index entry, later.transmitTable.lookup index = some entry → shim.transmitTable.lookup index = some entry
  usable : later.layoutState ≠ .failed → shim.layoutState ≠ .failed
  stands : later.layoutState ≠ .failed → ∀ index entry, shim.transmitTable.lookup index = some entry →
    standing resolves index entry = true → later.transmitTable.lookup index = some entry

theorem Keeps.refl (resolves : Int → Int → Bool) (shim : Shim) : shim.Keeps resolves shim where
  installed := rfl
  fewer _ _ here := here
  usable := id
  stands _ _ _ here _ := here

theorem prune_lookup (shim : Shim) (resolves : Int → Int → Bool) (index : Int) (entry : TransmitRule) :
    (shim.prune resolves).transmitTable.lookup index = some entry ↔
      shim.transmitTable.lookup index = some entry ∧ standing resolves index entry = true := by
  rw [prune,Table.lookup_retain,Option.filter_eq_some_iff]

theorem prune_keeps (shim : Shim) (resolves : Int → Int → Bool) : shim.Keeps resolves (shim.prune resolves) where
  installed := rfl
  fewer index entry here := ((prune_lookup shim resolves index entry).mp here).1
  usable := id
  stands _ index entry here stands := (prune_lookup shim resolves index entry).mpr ⟨here,stands⟩

theorem observe_keeps (pending : shim.layoutState = .pending) (resolves : Int → Int → Bool) (infos : List (Option Info)) :
    shim.Keeps resolves (shim.observe infos) := by
  have usable : shim.layoutState ≠ .failed := by simp [pending]
  have failed {later : Shim} (installed : later.hookInstalled = shim.hookInstalled) (failed : later.layoutState = .failed)
      (empty : later.transmitTable = ∅) : shim.Keeps resolves later :=
    ⟨installed,by simp [empty],fun still => absurd failed still,fun still => absurd failed still⟩
  have same {later : Shim} (installed : later.hookInstalled = shim.hookInstalled)
      (table : later.transmitTable = shim.transmitTable) : shim.Keeps resolves later :=
    ⟨installed,by simp [table],fun _ => usable,fun _ _ _ here _ => by rwa [table]⟩
  unfold observe
  split
  · exact .refl resolves shim
  · split
    · exact same rfl rfl
    · exact same rfl rfl
    · exact failed rfl rfl rfl
    · dsimp only
      split
      · exact failed rfl rfl rfl
      · exact same rfl rfl

theorem checkTransmit_keeps (shim : Shim) (resolves : Int → Int → Bool) (hooks : SetTransmit) (infos : List (Option Info)) :
    shim.Keeps resolves (shim.checkTransmit resolves hooks infos).1 := by
  unfold checkTransmit
  split
  · exact .refl resolves shim
  · split
    next pending => exact observe_keeps pending resolves infos
    next => exact .refl resolves shim
    next =>
      split
      · exact .refl resolves shim
      · dsimp only
        split <;> exact prune_keeps shim resolves

end Shim

namespace System

variable {allowed : System → Event → Prop} {system : System} {gone : Int → Int → Prop}

theorem Invariant.snapshot (invariant : system.Invariant gone) {later : Shim}
    (keeps : system.shim.Keeps system.resolves later) : ({ system with shim := later } : System).Invariant gone where
  oneSerial := invariant.oneSerial
  taken owner index rule here := by
    obtain ⟨running,installed,nonneg⟩ := invariant.taken owner index rule here
    exact ⟨running,keeps.installed.trans installed,nonneg⟩
  known := invariant.known
  entries index entry here := invariant.entries index entry (keeps.fewer index entry here)
  settled := by
    intro usable index rule live
    have settled := invariant.settled (keeps.usable usable) index rule live
    refine ⟨fun here => settled.mp (keeps.fewer index rule here),fun merges => ?_⟩
    have here := settled.mpr merges
    obtain ⟨nonneg,lt,_⟩ := invariant.entries index rule here
    have live : system.resolves index rule.serial = true := live
    exact keeps.stands usable index rule here (by simp [Shim.standing,nonneg,lt,live])

theorem step_invariant (invariant : system.Invariant gone) (event : Event) : (system.step event).Invariant gone := by
  cases event with
  | transmitSet owner index serial viewers => exact invariant.transmitSet owner index serial viewers
  | transmitReset owner index serial => exact invariant.transmitReset owner index serial
  | removeOwner owner => exact invariant.removeOwner owner
  | signon slot phase => exact ⟨invariant.oneSerial,invariant.taken,invariant.known,invariant.entries,invariant.settled⟩
  | snapshot hooks infos => exact invariant.snapshot (Shim.checkTransmit_keeps system.shim system.resolves hooks infos)

/-- In every run, host and shim agree about every live entity. -/
theorem reachable_invariant (reachable : Reachable allowed gone system) : system.Invariant gone := by
  induction reachable with
  | load engineOps hookInstalled trackedSignon resolves => exact load_invariant engineOps hookInstalled trackedSignon resolves
  | step _ _ ih => exact step_invariant ih _
  | world resolves never _ ih => exact ih.world never

end System

/-- Whether the entry sends an entity. -/
def Info.sends (info : Info) (index : Nat) : Bool := info.transmitEntity.elim false fun bits => bits index

namespace Shim

variable {shim : Shim}

theorem clearBit_iff (bits : TransmitBits) (index other : Nat) :
    clearBit bits index other = true ↔ bits other = true ∧ index ≠ other := by
  simp [clearBit,ne_comm]

theorem filterInfo_client (shim : Shim) (index : Nat) (mask : BitVec 64) (info : Info) :
    (shim.filterInfo index mask info).client = info.client := by
  unfold filterInfo
  split
  · rfl
  · split <;> rfl

theorem viewer_congr {info other : Info} (same : other.client = info.client) : shim.viewer other = shim.viewer info := by
  simp only [viewer,same]

theorem filterInfo_sends {info : Info} {slot : Nat} (viewer : shim.viewer info = some slot) (index other : Nat)
    (mask : BitVec 64) : (shim.filterInfo index mask info).sends other = true ↔
      info.sends other = true ∧ (index = other → mask.getLsbD slot = true) := by
  simp only [filterInfo,viewer]
  split
  next admitted => simp [admitted]
  next hidden =>
    obtain ⟨client,bits⟩ := info
    cases bits with
    | none => simp [Info.sends]
    | some bits => simp [Info.sends,clearBit_iff,hidden]

/-- One entry of a snapshot through all rules. -/
def filterAll (shim : Shim) (entries : List (Sigma fun _ : Int => TransmitRule)) (info : Info) : Info :=
  entries.foldl (fun info entry => shim.filterInfo entry.1.toNat entry.2.mask info) info

theorem filterAll_client (shim : Shim) (entries : List (Sigma fun _ : Int => TransmitRule)) (info : Info) :
    (shim.filterAll entries info).client = info.client := by
  induction entries generalizing info with
  | nil => rfl
  | cons entry rest ih => exact (ih _).trans (filterInfo_client shim _ _ info)

theorem filterAll_unseen {info : Info} (viewer : shim.viewer info = none) (entries : List (Sigma fun _ : Int => TransmitRule)) :
    shim.filterAll entries info = info := by
  induction entries with
  | nil => rfl
  | cons entry rest ih =>
    rw [filterAll,List.foldl_cons]
    rw [show shim.filterInfo entry.1.toNat entry.2.mask info = info by simp [filterInfo,viewer]]
    exact ih

theorem filterAll_sends {info : Info} {slot : Nat} (viewer : shim.viewer info = some slot)
    (entries : List (Sigma fun _ : Int => TransmitRule)) (index : Nat) :
    (shim.filterAll entries info).sends index = true ↔
      info.sends index = true ∧ ∀ entry ∈ entries, entry.1.toNat = index → entry.2.mask.getLsbD slot = true := by
  induction entries generalizing info with
  | nil => simp [filterAll]
  | cons entry rest ih =>
    have still := (@viewer_congr shim _ _ (filterInfo_client shim entry.1.toNat entry.2.mask info)).trans viewer
    rw [filterAll,List.foldl_cons]
    refine (ih still).trans ?_
    rw [filterInfo_sends viewer,and_assoc,List.forall_mem_cons]

/-- The entries go through the rules one by one, whatever the order of the loops. -/
theorem applyRules_eq (shim : Shim) (infos : List (Option Info)) :
    shim.applyRules infos = infos.map (Option.map (shim.filterAll shim.transmitTable.entries)) := by
  rw [applyRules]
  generalize shim.transmitTable.entries = entries
  induction entries generalizing infos with
  | nil => rw [show shim.filterAll [] = id from rfl,Option.map_id,List.map_id,List.foldl_nil]
  | cons entry rest ih =>
    rw [List.foldl_cons,ih,List.map_map]
    refine List.map_congr_left fun info _ => ?_
    cases info <;> rfl

/-- What the plugins' turn does to one viewer's bits: it clears those an answer hides, and asks
only for those still set. -/
theorem askEntity_foldl (hooks : SetTransmit) (position slot : Nat) (pairs : List (Int × Int)) (bits : TransmitBits)
    (asked : List Ask) :
    ∃ fresh, (pairs.foldl (askEntity hooks position slot) (bits,asked)).2 = asked ++ fresh ∧
      (∀ ask ∈ fresh, ask.position = position ∧ ask.slot = slot ∧ bits ask.index = true ∧
        ((ask.index : Int),ask.serial) ∈ pairs) ∧
      ∀ index, (pairs.foldl (askEntity hooks position slot) (bits,asked)).1 index = true ↔
        bits index = true ∧ ∀ ask ∈ fresh, ask.index = index → hides ask.result = false := by
  induction pairs generalizing bits asked with
  | nil => exact ⟨[],by simp⟩
  | cons pair rest ih =>
    rw [List.foldl_cons]
    have skip (unchanged : askEntity hooks position slot (bits,asked) pair = (bits,asked)) :
        ∃ fresh, (rest.foldl (askEntity hooks position slot) (askEntity hooks position slot (bits,asked) pair)).2 = asked ++ fresh ∧
          (∀ ask ∈ fresh, ask.position = position ∧ ask.slot = slot ∧ bits ask.index = true ∧
            ((ask.index : Int),ask.serial) ∈ pair :: rest) ∧
          ∀ index, (rest.foldl (askEntity hooks position slot) (askEntity hooks position slot (bits,asked) pair)).1 index = true ↔
            bits index = true ∧ ∀ ask ∈ fresh, ask.index = index → hides ask.result = false := by
      obtain ⟨fresh,appended,asks,shown⟩ := ih bits asked
      rw [unchanged]
      refine ⟨fresh,appended,fun ask member => ?_,shown⟩
      obtain ⟨here,viewer,set,listed⟩ := asks ask member
      exact ⟨here,viewer,set,List.mem_cons_of_mem _ listed⟩
    by_cases outside : (decide (pair.1 < 0) || decide ((maxEdicts : Int) ≤ pair.1)) = true
    · exact skip (by simp only [askEntity,outside,if_true])
    · cases set : bits pair.1.toNat with
      | false => exact skip (by simp [askEntity,set])
      | true =>
        simp only [Bool.or_eq_true,decide_eq_true_eq,not_or,Int.not_lt] at outside
        let ask : Ask := ⟨position,pair.1.toNat,pair.2,slot,hooks.answer asked pair slot⟩
        let left : TransmitBits := if hides ask.result then clearBit bits ask.index else bits
        have stepped : askEntity hooks position slot (bits,asked) pair = (left,asked ++ [ask]) := by
          simp [askEntity,set,Int.not_lt.mpr outside.1,outside.2,left,ask]
        have left_iff (index : Nat) : left index = true ↔ bits index = true ∧ (ask.index = index → hides ask.result = false) := by
          simp only [left]
          split
          next hidden => simp [clearBit_iff,hidden]
          next admitted => simp [admitted]
        obtain ⟨fresh,appended,asks,shown⟩ := ih left (asked ++ [ask])
        rw [stepped]
        refine ⟨ask :: fresh,by rw [appended,List.append_assoc,List.singleton_append],?_,fun index => ?_⟩
        · rw [List.forall_mem_cons]
          refine ⟨⟨rfl,rfl,set,?_⟩,fun other member => ?_⟩
          · rw [show ((ask.index : Int),ask.serial) = pair from Prod.ext (Int.toNat_of_nonneg outside.1) rfl]
            exact List.mem_cons_self
          · obtain ⟨here,viewer,set,listed⟩ := asks other member
            exact ⟨here,viewer,((left_iff _).mp set).1,List.mem_cons_of_mem _ listed⟩
        · rw [shown,left_iff,List.forall_mem_cons,and_assoc]

/-- What the entries of a snapshot look like after some were asked about, from a position on. -/
structure Asked (shim : Shim) (hooks : SetTransmit) (position : Nat) (infos sent : List (Option Info)) (fresh : List Ask) :
    Prop where
  absent : ∀ offset : Nat, infos[offset]? = some none → sent[offset]? = some none
  present : ∀ (offset : Nat) (info : Info), infos[offset]? = some (some info) → ∃ other, sent[offset]? = some (some other) ∧
    other.client = info.client ∧ (shim.viewer info = none → other = info) ∧
    ∀ slot, shim.viewer info = some slot → ∀ index, other.sends index = true ↔
      info.sends index = true ∧ ∀ ask ∈ fresh, ask.position = position + offset → ask.index = index → hides ask.result = false
  asks : ∀ ask ∈ fresh, ∃ offset info, ask.position = position + offset ∧ infos[offset]? = some (some info) ∧
    shim.viewer info = some ask.slot ∧ info.sends ask.index = true ∧ ((ask.index : Int),ask.serial) ∈ hooks.hooked

theorem askInfo_spec (shim : Shim) (hooks : SetTransmit) (position : Nat) (info : Info) (asked : List Ask) :
    ∃ fresh, (shim.askInfo hooks position info asked).2 = asked ++ fresh ∧
      (shim.askInfo hooks position info asked).1.client = info.client ∧
      (shim.viewer info = none → (shim.askInfo hooks position info asked).1 = info) ∧
      (∀ ask ∈ fresh, ask.position = position ∧ shim.viewer info = some ask.slot ∧ info.sends ask.index = true ∧
        ((ask.index : Int),ask.serial) ∈ hooks.hooked) ∧
      ∀ index, (shim.askInfo hooks position info asked).1.sends index = true ↔
        info.sends index = true ∧ ∀ ask ∈ fresh, ask.index = index → hides ask.result = false := by
  obtain ⟨client,bits⟩ := info
  cases seen : shim.viewer ⟨client,bits⟩ with
  | none => exact ⟨[],by simp [askInfo,seen]⟩
  | some slot =>
    cases bits with
    | none => exact ⟨[],by simp [askInfo,seen]⟩
    | some bits =>
      obtain ⟨fresh,appended,asks,shown⟩ := askEntity_foldl hooks position slot (hooks.hooked.take maxEdicts) bits asked
      simp only [askInfo,seen]
      refine ⟨fresh,appended,trivial,by simp,fun ask member => ?_,shown⟩
      obtain ⟨here,viewer,set,listed⟩ := asks ask member
      exact ⟨here,congrArg some viewer.symm,set,List.mem_of_mem_take listed⟩

theorem askInfos_spec (shim : Shim) (hooks : SetTransmit) (position : Nat) (infos : List (Option Info)) (asked : List Ask) :
    ∃ fresh, (shim.askInfos hooks position infos asked).2 = asked ++ fresh ∧
      shim.Asked hooks position infos (shim.askInfos hooks position infos asked).1 fresh := by
  induction infos generalizing position asked with
  | nil => exact ⟨[],by simp [askInfos],by simp,by simp,by simp⟩
  | cons info rest ih =>
    have shift (offset : Nat) : position + 1 + offset = position + (offset + 1) := by omega
    cases info with
    | none =>
      obtain ⟨fresh,appended,later⟩ := ih (position + 1) asked
      refine ⟨fresh,appended,?_,?_,?_⟩
      · rintro (_ | offset) here
        · rfl
        · exact later.absent offset here
      · rintro (_ | offset) info here
        · simp at here
        · obtain ⟨other,there,client,unseen,shown⟩ := later.present offset info here
          exact ⟨other,there,client,unseen,fun slot viewer index => by rw [← shift]; exact shown slot viewer index⟩
      · intro ask member
        obtain ⟨offset,info,located,here,viewer,sends,listed⟩ := later.asks ask member
        exact ⟨offset + 1,info,by rw [← shift]; exact located,here,viewer,sends,listed⟩
    | some info =>
      obtain ⟨first,asked_eq,client,unseen,asks,shown⟩ := askInfo_spec shim hooks position info asked
      obtain ⟨fresh,appended,later⟩ := ih (position + 1) (shim.askInfo hooks position info asked).2
      have distinct : ∀ ask ∈ fresh, position < ask.position := by
        intro ask member
        obtain ⟨offset,_,located,_⟩ := later.asks ask member
        omega
      refine ⟨first ++ fresh,?_,?_,?_,?_⟩
      · rw [← List.append_assoc,← asked_eq]
        exact appended
      · rintro (_ | offset) here
        · simp at here
        · exact later.absent offset here
      · rintro (_ | offset) found here
        · obtain rfl : info = found := by simpa using here
          refine ⟨_,rfl,client,unseen,fun slot viewer index => (shown index).trans (and_congr_right fun _ => ?_)⟩
          simp only [List.mem_append,Nat.add_zero]
          constructor
          · rintro all ask (mine | others) same named
            · exact all ask mine named
            · exact absurd same (Nat.ne_of_gt (distinct ask others))
          · exact fun all ask member named => all ask (.inl member) (asks ask member).1 named
        · obtain ⟨other,there,client,unseen,shown⟩ := later.present offset found here
          refine ⟨other,there,client,unseen,fun slot viewer index => (shown slot viewer index).trans (and_congr_right fun _ => ?_)⟩
          rw [← shift offset]
          simp only [List.mem_append]
          constructor
          · rintro all ask (others | mine) same named
            · have := (asks ask others).1
              omega
            · exact all ask mine same named
          · exact fun all ask member same named => all ask (.inr member) same named
      · intro ask member
        rcases List.mem_append.mp member with here | there
        · obtain ⟨same,viewer,sends,listed⟩ := asks ask here
          exact ⟨0,info,same,rfl,viewer,sends,listed⟩
        · obtain ⟨offset,found,located,here,viewer,sends,listed⟩ := later.asks ask there
          exact ⟨offset + 1,found,by rw [← shift]; exact located,here,viewer,sends,listed⟩

end Shim

namespace System

/-- Every rule for an entity that still stands admits the viewer. -/
def Admits (system : System) (index slot : Nat) : Prop :=
  ∀ owner rule, system.rules.get owner index = some rule → system.resolves index rule.serial = true →
    rule.mask.getLsbD slot = true

variable {allowed : System → Event → Prop} {system : System} {gone : Int → Int → Prop}

/-- The entries left after pruning admit a viewer just when the rules do. -/
theorem Invariant.admits_iff (invariant : system.Invariant gone) (usable : system.shim.layoutState ≠ .failed)
    (index slot : Nat) : (∀ entry ∈ (system.shim.prune system.resolves).transmitTable.entries,
      entry.1.toNat = index → entry.2.mask.getLsbD slot = true) ↔ system.Admits index slot := by
  constructor
  · intro all owner rule held live
    have one := fun other found => invariant.oneSerial index owner other rule found held
    cases folded : system.rules.merged index with
    | none =>
      rw [(FoldTable.merged_eq_none_iff system.rules index).mp folded owner] at held
      contradiction
    | some merged =>
      have merges := (merged_eq_some_iff one merged).mp folded
      have live : system.resolves index merged.serial = true := merges.serial owner rule held ▸ live
      have here := (invariant.settled usable index merged live).mpr merges
      obtain ⟨nonneg,lt,_⟩ := invariant.entries index merged here
      have kept := (Shim.prune_lookup system.shim system.resolves index merged).mpr
        ⟨here,by simp [Shim.standing,lt,live]⟩
      have entry := (Table.lookup_iff_entry _ _ _).mp kept
      exact (merges.mask slot).mp (all _ entry (Int.toNat_natCast index)) owner rule held
  · rintro admits ⟨found,entry⟩ member rfl
    obtain ⟨here,standing⟩ := (Shim.prune_lookup _ _ _ _).mp ((Table.lookup_iff_entry _ _ _).mpr member)
    simp only [Shim.standing,Bool.and_eq_true,decide_eq_true_eq] at standing
    have merges := (invariant.settled usable found entry standing.2).mp here
    refine (merges.mask slot).mpr fun owner rule held => ?_
    have same : ((found.toNat : Nat) : Int) = found := Int.toNat_of_nonneg standing.1.1
    refine admits owner rule (by rwa [same]) ?_
    rw [same,merges.serial owner rule held]
    exact standing.2

/-- What a snapshot hands on: an entry of a fully signed-on client sends what it sent before,
less what a rule or an answer hides; every other entry is as it was; and the plugins are asked
only about an entity that would otherwise be sent. -/
structure Shown (system : System) (hooks : Shim.SetTransmit) (infos sent : List (Option Info)) (asked : List Shim.Ask) :
    Prop where
  absent : ∀ position : Nat, infos[position]? = some none → sent[position]? = some none
  present : ∀ (position : Nat) (info : Info), infos[position]? = some (some info) →
    ∃ other, sent[position]? = some (some other) ∧ other.client = info.client ∧
      (system.shim.viewer info = none → other = info) ∧
      ∀ slot, system.shim.viewer info = some slot → ∀ index, other.sends index = true ↔
        info.sends index = true ∧ system.Admits index slot ∧
          ∀ ask ∈ asked, ask.position = position → ask.index = index → Shim.hides ask.result = false
  asks : ∀ ask ∈ asked, ∃ info, infos[ask.position]? = some (some info) ∧ system.shim.viewer info = some ask.slot ∧
    info.sends ask.index = true ∧ system.Admits ask.index ask.slot ∧ ((ask.index : Int),ask.serial) ∈ hooks.hooked

/-- The rules alone. -/
theorem Invariant.filtered (invariant : system.Invariant gone) (usable : system.shim.layoutState ≠ .failed)
    (hooks : Shim.SetTransmit) (infos : List (Option Info)) :
    system.Shown hooks infos ((system.shim.prune system.resolves).applyRules infos) [] where
  absent position here := by rw [Shim.applyRules_eq,List.getElem?_map,here]; rfl
  present position info here := by
    rw [Shim.applyRules_eq,List.getElem?_map,here]
    refine ⟨_,rfl,Shim.filterAll_client _ _ info,fun unseen => Shim.filterAll_unseen unseen _,fun slot viewer index => ?_⟩
    have seen : (system.shim.prune system.resolves).viewer info = some slot := viewer
    rw [Shim.filterAll_sends seen,invariant.admits_iff usable index slot]
    simp
  asks := by simp

/-- In every run, once the layout is known, a snapshot sends a client what the engine sends it,
less what some live rule denies it and what some plugin that was asked hides from it. No owner's
rule widens another's, and a rule that has left denies nothing. -/
theorem snapshot_shows (reachable : Reachable allowed gone system) (validated : system.shim.layoutState = .validated)
    (hooks : Shim.SetTransmit) (infos : List (Option Info)) :
    system.Shown hooks infos (system.shim.checkTransmit system.resolves hooks infos).2.1
      (system.shim.checkTransmit system.resolves hooks infos).2.2 := by
  have invariant := reachable_invariant reachable
  have usable : system.shim.layoutState ≠ .failed := by simp [validated]
  have filtered := invariant.filtered usable hooks infos
  unfold Shim.checkTransmit
  split
  · rename_i empty
    obtain rfl : infos = [] := List.isEmpty_iff.mp empty
    exact ⟨by simp,by simp,by simp⟩
  · simp only [validated]
    split
    · rename_i idle
      -- With nothing in the table, no live rule denies anything.
      simp only [Bool.and_eq_true,decide_eq_true_eq,Table.size,List.length_eq_zero_iff] at idle
      have none : (system.shim.prune system.resolves).transmitTable.entries = [] := by
        simp [Shim.prune,Table.retain,idle.1]
      rw [Shim.applyRules_eq,none,show (system.shim.prune system.resolves).filterAll [] = id from rfl,Option.map_id,
        List.map_id] at filtered
      exact filtered
    · split
      · obtain ⟨fresh,appended,asked⟩ := Shim.askInfos_spec (system.shim.prune system.resolves) hooks 0
          ((system.shim.prune system.resolves).applyRules infos) []
        rw [List.nil_append] at appended
        rw [appended]
        refine ⟨?_,?_,?_⟩
        · exact fun position here => asked.absent position (filtered.absent position here)
        · intro position info here
          obtain ⟨middle,there,client,unseen,shown⟩ := filtered.present position info here
          obtain ⟨last,final,same,left,answered⟩ := asked.present position middle there
          have viewers : (system.shim.prune system.resolves).viewer middle = system.shim.viewer info :=
            Shim.viewer_congr client
          refine ⟨last,final,same.trans client,fun none => ?_,fun slot viewer index => ?_⟩
          · rw [left (viewers.trans none),unseen none]
          · rw [answered slot (viewers.trans viewer),shown slot viewer]
            simp [and_assoc]
        · intro ask member
          obtain ⟨position,middle,located,there,viewer,sends,listed⟩ := asked.asks ask member
          rw [Nat.zero_add] at located
          cases here : infos[position]? with
          | none =>
            rw [Shim.applyRules_eq,List.getElem?_map,here] at there
            contradiction
          | some entry =>
            cases entry with
            | none =>
              rw [filtered.absent position here] at there
              exact absurd there (by simp)
            | some info =>
              obtain ⟨other,found,client,_,shown⟩ := filtered.present position info here
              obtain rfl : other = middle := by simpa [found] using there
              have seen : system.shim.viewer info = some ask.slot := (Shim.viewer_congr client).symm.trans viewer
              obtain ⟨before,admits,_⟩ := (shown ask.slot seen ask.index).mp sends
              exact ⟨info,located ▸ here,seen,before,admits,listed⟩
      · exact filtered

/-- A server with one entity and one client, whose layout a first snapshot has settled and whose
entity a plugin then keeps for another slot. -/
def sample : System :=
  let world := load true true (fun slot => if slot = 2 then signonFull else signonNone) fun index serial =>
    index = 5 && serial = 9
  (world.step (.snapshot ⟨false,[],fun _ _ _ => 0⟩ [some ⟨2,some fun _ => true⟩])).step (.transmitSet "cloak" 5 9 [1])

theorem sample_hides :
    ∃ other, (sample.shim.checkTransmit sample.resolves ⟨false,[],fun _ _ _ => 0⟩
      [some ⟨2,some fun _ => true⟩]).2.1[0]? = some (some other) ∧ other.sends 5 = false := by
  have reachable : Reachable (fun _ _ => True) (fun _ _ => False) sample := by
    simp only [sample]
    exact .step trivial (.step trivial (.load true true _ _))
  have shown := snapshot_shows reachable (by decide) ⟨false,[],fun _ _ _ => 0⟩ [some ⟨2,some fun _ => true⟩]
  obtain ⟨other,there,_,_,sends⟩ := shown.present 0 ⟨2,some fun _ => true⟩ rfl
  refine ⟨other,there,?_⟩
  have hidden : ¬sample.Admits 5 2 := fun admits => by
    have kept : sample.rules.get "cloak" 5 = some ⟨9,2#64⟩ := by decide
    exact absurd (admits "cloak" ⟨9,2#64⟩ kept (by decide)) (by decide)
  refine Bool.eq_false_iff.mpr fun visible => ?_
  exact hidden ((sends 2 (by decide) 5).mp visible).2.1

end System

end S2Script.EntityVisibility
