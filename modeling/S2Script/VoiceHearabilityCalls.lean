import S2Script.VoiceHearabilitySafety

/-! What the engine ends up with. Every call that would let a receiver listen is turned down just
when a mute or a rule stands against it; and the check of the engine's calls goes through the same
hook, so that a rule can spoil it. -/
namespace S2Script.VoiceHearability

namespace Shim

variable {shim : Shim} {rules : FoldTable Int (BitVec 64)} {receiver sender : Int}

theorem firstFire_muted (shim : Shim) (receiver sender : Int) : (shim.firstFire receiver sender).muted = shim.muted := by
  unfold firstFire
  split <;> rfl

theorem firstFire_denies (shim : Shim) (receiver sender : Int) :
    (shim.firstFire receiver sender).denies receiver sender = shim.denies receiver sender := by
  unfold firstFire
  split <;> rfl

theorem firstFire_healthy (healthy : shim.listenDegraded = false) (near : inRange receiver = true)
    (far : inRange sender = true) : (shim.firstFire receiver sender).listenDegraded = false := by
  rw [inRange_iff] at near far
  unfold firstFire
  split
  · exact healthy
  · simp only [healthy,Bool.false_or,decide_eq_false_iff_not,Bool.or_eq_false_iff]
    omega

/-- A listen goes through just when the sender is not muted and its rules let the receiver in. -/
theorem denies_iff (carries : Carries shim rules sender) : shim.denies receiver sender = false ↔
    shim.muted sender.toNat = false ∧ (inRange receiver = true → Admits rules sender receiver.toNat) := by
  unfold denies
  cases muted : shim.muted sender.toNat with
  | true => simp
  | false =>
    by_cases ruled : Ruled rules sender
    · rw [if_neg (by simp),if_pos (carries.ruled.mpr ruled),← carries.admits ruled]
      cases inRange receiver <;> simp
    · have bit : shim.hasRule.getLsbD sender.toNat = false := by
        simpa using mt carries.ruled.mp ruled
      have admits : Admits rules sender receiver.toNat := fun owner mask held => absurd ⟨owner,mask,held⟩ ruled
      simp [bit,admits]

end Shim

namespace System

variable {system : System} {receiver sender : Int}

/-- What the engine stores when it is asked to let a receiver listen, or not. -/
theorem Invariant.listening (invariant : system.Invariant) (installed : system.shim.listenHookInstalled = true)
    (listen : Bool) (healthy : (system.setClientListening receiver sender listen).shim.listenDegraded = false) :
    (system.setClientListening receiver sender listen).cells sender receiver = true ↔ listen = true ∧
      (Shim.inRange sender = true → system.shim.muted sender.toNat = false ∧
        (Shim.inRange receiver = true → Admits system.rules sender receiver.toNat)) := by
  have before := (Quiet.setClientListening system receiver sender listen).healthy healthy
  have kept : (system.shim.setClientListening receiver sender listen).1 = system.shim.firstFire receiver sender := by
    simp only [Shim.setClientListening]
    split <;> rfl
  simp only [System.setClientListening,installed,if_true,kept] at healthy
  simp only [System.setClientListening,installed,if_true,and_self,Shim.setClientListening,healthy,Bool.not_false,
    Bool.true_and,Shim.firstFire_denies]
  cases listen with
  | false => simp
  | true =>
    cases inside : Shim.inRange sender with
    | false => simp
    | true =>
      rw [← Shim.denies_iff (invariant.settled before sender inside)]
      simp

theorem push_keeps (system : System) (sender : Int) : (system.voiceRecomputeAndPush sender).rules = system.rules ∧
    (system.voiceRecomputeAndPush sender).shim.muted = system.shim.muted := by
  have set (mask : BitVec 64) : (system.shim.audibleSet sender mask).1.muted = system.shim.muted := by
    unfold Shim.audibleSet
    split_ifs <;> rfl
  have clear : (system.shim.audibleClear sender).muted = system.shim.muted := by
    unfold Shim.audibleClear
    split_ifs <;> rfl
  unfold voiceRecomputeAndPush
  split
  · exact ⟨rfl,rfl⟩
  · split
    · exact ⟨rfl,set _⟩
    · exact ⟨rfl,clear⟩

theorem voiceClearSlot_forgets (system : System) (sender : Int) : ¬Ruled (system.voiceClearSlot sender).rules sender ∧
    (system.voiceClearSlot sender).shim.muted = system.shim.muted := by
  have cleared : ¬Ruled (system.rules.clearKey sender).1 sender := by
    rintro ⟨owner,mask,held⟩
    rw [FoldTable.get_clearKey,if_pos rfl] at held
    contradiction
  unfold voiceClearSlot
  dsimp only
  split
  · obtain ⟨rules,muted⟩ := push_keeps { system with rules := (system.rules.clearKey sender).1 } sender
    rw [rules,muted]
    exact ⟨cleared,rfl⟩
  · exact ⟨cleared,rfl⟩

/-- Whoever comes to a slot next is neither muted nor under a rule of the client that left. -/
theorem retire_forgets {slot : Int} (inside : Shim.inRange slot = true) (may : permitted system (.retired slot)) :
    (system.step (.retired slot)).shim.muted slot.toNat = false ∧ ¬Ruled (system.step (.retired slot)).rules slot := by
  have unmuted : (system.shim.clearClientSlotState slot).muted slot.toNat = false := by
    simp [Shim.clearClientSlotState,inside]
  simp only [step]
  by_cases unknown : system.generation slot = 0
  · rw [retire_unknown unknown]
    refine ⟨unmuted,?_⟩
    rw [ruled_iff,not_not]
    exact may.resolve_left fun known => known unknown
  · rw [retire_known unknown]
    obtain ⟨unruled,muted⟩ := voiceClearSlot_forgets { system with
      shim := system.shim.clearClientSlotState slot, connections := system.connections.remove slot } slot
    rw [muted]
    exact ⟨unmuted,unruled⟩

theorem validationSlots_spec {shim : Shim} {first second : Nat} (slots : validationSlots shim = some (first,second)) :
    (first < maxClientSlots ∧ shim.muted first = false) ∧ second < maxClientSlots ∧ shim.muted second = false := by
  unfold validationSlots at slots
  have member (slot : Nat) (here : slot ∈ (List.range maxClientSlots).filter fun slot => shim.clientValid slot && !shim.muted slot) :
      slot < maxClientSlots ∧ shim.muted slot = false := by
    simp only [List.mem_filter,List.mem_range,Bool.and_eq_true,Bool.not_eq_true'] at here
    exact ⟨here.1,here.2.2⟩
  split at slots
  · rename_i found others rest listed
    obtain ⟨rfl,rfl⟩ := Prod.mk.inj (Option.some.inj slots)
    rw [listed] at member
    exact ⟨member _ (by simp),member _ (by simp)⟩
  · contradiction

theorem inRange_natCast {slot : Nat} (small : slot < maxClientSlots) : Shim.inRange (slot : Int) = true := by
  rw [inRange_iff]
  exact ⟨Int.natCast_nonneg slot,by simpa using small⟩

/-- One flip of the check, on an engine that stores what it is told. -/
theorem Invariant.flip (invariant : system.Invariant) {first second : Nat} (installed : system.shim.listenHookInstalled = true)
    (healthy : system.shim.listenDegraded = false) (near : first < maxClientSlots) (far : second < maxClientSlots)
    (unmuted : system.shim.muted second = false) (listen : Bool) :
    ((system.setClientListening first second listen).cells second first = true ↔
      listen = true ∧ Admits system.rules second first) ∧
    (system.setClientListening first second listen).shim.listenDegraded = false ∧
    (system.setClientListening first second listen).shim.muted = system.shim.muted := by
  have kept : (system.shim.setClientListening first second listen).1 = system.shim.firstFire first second := by
    simp only [Shim.setClientListening]
    split <;> rfl
  have shim : (system.setClientListening first second listen).shim = system.shim.firstFire first second := by
    simp only [System.setClientListening,installed,if_true,kept]
  have still : (system.setClientListening first second listen).shim.listenDegraded = false := by
    rw [shim]
    exact Shim.firstFire_healthy healthy (inRange_natCast near) (inRange_natCast far)
  refine ⟨(invariant.listening installed listen still).trans ?_,still,?_⟩
  · simp [inRange_natCast near,inRange_natCast far,unmuted]
  · rw [shim]
    exact Shim.firstFire_muted system.shim first second

/-- Two clients, the second of which a plugin makes audible to slot 3 alone. -/
def sample : System :=
  (((load true true true fun _ _ => false).step (.connected 1)).step (.connected 2)).step (.audibleSet "radio" 2 [3])

theorem sample_reachable : Reachable sample := by
  simp only [sample]
  exact .step trivial (.step trivial (.step trivial (.load true true true _)))

theorem sample_rule : sample.rules.get "radio" 2 = some 8#64 := by decide

theorem sample_forgotten : (sample.step (.retired 2)).shim.muted 2 = false ∧
    ¬Ruled (sample.step (.retired 2)).rules 2 := retire_forgets (by decide) (.inl (by decide))

end System

end S2Script.VoiceHearability
