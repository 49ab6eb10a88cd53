import S2Script.EntityVisibilitySafety

/-! The check of the client offset. The shim must find out from live snapshots which client an
entry is for, and until then it changes nothing. An offset that is right is found out at once. -/
namespace S2Script.EntityVisibility

namespace System

variable {system : System} {gone : Int → Int → Prop}

/-- An entry the layout check can read. -/
def readable (info : Option Info) : Bool := info.any fun info => info.transmitEntity.isSome

/-- The client integer is a slot: every readable entry of a snapshot names a tracked client, and
one is readable. -/
structure SlotsRead (shim : Shim) (infos : List (Option Info)) : Prop where
  some : ∃ info ∈ infos, readable info = true
  tracked : ∀ info, Option.some info ∈ infos → readable info = true → shim.tracked info.client = true

/-- Events of a server whose offset is right. -/
def slotEvent (system : System) : Event → Prop
  | .snapshot _ infos => infos ≠ [] → SlotsRead system.shim infos
  | _ => True

theorem tally_slots {shim : Shim} {infos : List (Option Info)} (tally : Shim.Tally)
    (tracked : ∀ info, some info ∈ infos → readable info = true → shim.tracked info.client = true) :
    ∃ later, infos.foldlM shim.tallyInfo tally = some later ∧ later.entWitness = tally.entWitness ∧
      later.sane = tally.sane + infos.countP readable := by
  induction infos generalizing tally with
  | nil => exact ⟨tally,rfl,rfl,rfl⟩
  | cons info rest ih =>
    have others : ∀ info, some info ∈ rest → readable info = true → shim.tracked info.client = true :=
      fun info member => tracked info (List.mem_cons_of_mem _ member)
    rw [List.foldlM_cons]
    by_cases seen : readable info = true
    · obtain ⟨info,rfl⟩ : ∃ found, info = some found := by
        cases info with
        | none => simp [readable] at seen
        | some found => exact ⟨found,rfl⟩
      have slot := tracked info List.mem_cons_self seen
      have bounds : 0 ≤ info.client ∧ info.client < maxClientSlots := by
        simp only [Shim.tracked,Bool.and_eq_true,decide_eq_true_eq] at slot
        exact slot.1
      have sane : ¬(info.client < 0 ∨ 128 < info.client) := by
        have : (maxClientSlots : Int) = 64 := rfl
        omega
      have bits : info.transmitEntity.isNone = false := by simpa [readable] using seen
      obtain ⟨later,run,witness,count⟩ := ih ⟨tally.slotWitness + (!shim.tracked (info.client - 1)).toNat,
        tally.entWitness,tally.sane + 1⟩ others
      refine ⟨later,?_,witness,?_⟩
      · simpa [Shim.tallyInfo,bits,sane,slot] using run
      · rw [count,List.countP_cons_of_pos seen]
        exact Nat.add_right_comm _ _ _
    · have skipped : shim.tallyInfo tally info = some tally := by
        cases info with
        | none => rfl
        | some info =>
          have bits : info.transmitEntity.isNone = true := by simpa [readable] using seen
          simp [Shim.tallyInfo,bits]
      rw [skipped,List.countP_cons_of_neg seen]
      exact ih tally others

/-- Such a snapshot settles the layout, and reads the integer as a slot. -/
theorem observe_slots {shim : Shim} {infos : List (Option Info)} (slots : SlotsRead shim infos) :
    shim.observe infos = { shim with layoutState := .validated, clientIsEntIndex := false } := by
  obtain ⟨info,member,seen⟩ := slots.some
  have any : shim.anyTracked = true := by
    obtain ⟨info,rfl⟩ : ∃ found, info = Option.some found := by
      cases info with
      | none => simp [readable] at seen
      | some found => exact ⟨found,rfl⟩
    have slot := slots.tracked info member seen
    simp only [Shim.tracked,Bool.and_eq_true,decide_eq_true_eq] at slot
    refine List.any_eq_true.mpr ⟨info.client.toNat,List.mem_range.mpr ?_,slot.2⟩
    omega
  obtain ⟨tally,run,witness,sane⟩ := tally_slots ⟨0,0,0⟩ slots.tracked
  have counted : 0 < tally.sane := by
    rw [sane]
    exact Nat.add_pos_right _ (List.countP_pos_iff.mpr ⟨info,member,seen⟩)
  have verdict : shim.validateLayout infos = .witnessed false ∨ shim.validateLayout infos = .agreed := by
    simp only [Shim.validateLayout,run]
    by_cases witnessed : 0 < tally.slotWitness
    · simp [witnessed,witness]
    · simp [witnessed,witness,counted]
  simp only [Shim.observe,any,Bool.not_true]
  rcases verdict with verdict | verdict <;> rw [verdict] <;> rfl

/-- What the shim has made of the layout. -/
def layout (system : System) : LayoutState × Bool × Nat :=
  (system.shim.layoutState,system.shim.clientIsEntIndex,system.shim.validateAttempts)

theorem shim_transmitSet_layout (system : System) (index serial : Int) (mask : BitVec 64) :
    ({ system with shim := (system.shim.transmitSet system.resolves index serial mask).1 } : System).layout = system.layout := by
  unfold Shim.transmitSet
  split_ifs <;> rfl

theorem recomputeAndPush_layout (system : System) (index : Int) : (system.recomputeAndPush index).layout = system.layout := by
  unfold recomputeAndPush
  split
  · rfl
  · split
    · exact shim_transmitSet_layout system index _ _
    · rfl

theorem pushes_layout (system : System) (indices : List Int) : (indices.foldl recomputeAndPush system).layout = system.layout := by
  induction indices generalizing system with
  | nil => rfl
  | cons index rest ih => exact (ih _).trans (recomputeAndPush_layout system index)

/-- The layout is the snapshots' business. -/
theorem step_layout (system : System) (event : Event) (quiet : ∀ hooks infos, event ≠ .snapshot hooks infos) :
    (system.step event).layout = system.layout := by
  cases event with
  | transmitSet owner index serial viewers =>
    simp only [step,System.transmitSet]
    split
    · rfl
    · split
      · rfl
      · split <;> exact shim_transmitSet_layout system index serial _
  | transmitReset owner index serial =>
    simp only [step,System.transmitReset]
    split
    · exact recomputeAndPush_layout _ index
    · rfl
  | removeOwner owner => exact pushes_layout _ _
  | signon slot phase => rfl
  | snapshot hooks infos => exact absurd rfl (quiet hooks infos)

/-- A layout once settled, or once given up, stays so; entries may only be dropped. -/
theorem snapshot_layout (system : System) (hooks : Shim.SetTransmit) (infos : List (Option Info))
    (done : system.shim.layoutState ≠ .pending) : (system.step (.snapshot hooks infos)).layout = system.layout := by
  simp only [step,Shim.checkTransmit]
  split
  · rfl
  · split
    next pending => exact absurd pending done
    next => rfl
    next =>
      split
      · rfl
      · split <;> rfl

/-- A server whose one client is at slot 2. -/
def oneClient : System :=
  load true true (fun slot => if slot = 2 then signonFull else signonNone) fun _ _ => false

end System

end S2Script.EntityVisibility
