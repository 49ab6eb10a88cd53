import S2Script.VoiceHearability

/-! Host and shim agree about every sender, so that the engine lets a receiver listen just when
no mute and no rule stands against it; and what was said about a client does not outlive it. -/
namespace S2Script.VoiceHearability

open Liveness

theorem slotBit_getLsbD {slot : Nat} (small : slot < maxClientSlots) (other : Nat) :
    (slotBit slot).getLsbD other = decide (other = slot) := by
  have : maxClientSlots = 64 := rfl
  by_cases same : other = slot
  · subst same
    simp [slotBit,BitVec.getLsbD_shiftLeft]
    omega
  · simp [slotBit,BitVec.getLsbD_shiftLeft,same]
    omega

theorem inRange_iff (slot : Int) : Shim.inRange slot = true ↔ 0 ≤ slot ∧ slot.toNat < maxClientSlots := by
  simp only [Shim.inRange,Bool.and_eq_true,decide_eq_true_eq]
  omega

theorem toNat_inj {slot other : Int} (here : Shim.inRange slot = true) (there : Shim.inRange other = true)
    (same : slot.toNat = other.toNat) : slot = other := by
  rw [inRange_iff] at here there
  omega

theorem mask_andFold (slot : Nat) (mask other : BitVec 64) :
    (AndFold.andFold mask other).getLsbD slot = true ↔ mask.getLsbD slot = true ∧ other.getLsbD slot = true := by
  simp [AndFold.andFold]

/-- Every rule for a sender lets the receiver in. -/
def Admits (rules : FoldTable Int (BitVec 64)) (sender : Int) (receiver : Nat) : Prop :=
  ∀ owner mask, rules.get owner sender = some mask → mask.getLsbD receiver = true

def Ruled (rules : FoldTable Int (BitVec 64)) (sender : Int) : Prop := ∃ owner mask, rules.get owner sender = some mask

theorem ruled_iff (rules : FoldTable Int (BitVec 64)) (sender : Int) : Ruled rules sender ↔ rules.merged sender ≠ none := by
  rw [Ne,FoldTable.merged_eq_none_iff,not_forall]
  exact exists_congr fun owner => (Option.ne_none_iff_exists'.symm)

theorem merged_admits {rules : FoldTable Int (BitVec 64)} {sender : Int} {mask : BitVec 64}
    (folded : rules.merged sender = some mask) (receiver : Nat) :
    mask.getLsbD receiver = true ↔ Admits rules sender receiver :=
  @FoldTable.merged_all_iff _ _ _ _ (fun mask : BitVec 64 => mask.getLsbD receiver = true) (mask_andFold receiver) _ _ _ folded

/-- The shim carries a sender's rules: its bit says that there are some, its mask what they admit. -/
structure Carries (shim : Shim) (rules : FoldTable Int (BitVec 64)) (sender : Int) : Prop where
  ruled : shim.hasRule.getLsbD sender.toNat = true ↔ Ruled rules sender
  admits : Ruled rules sender → ∀ receiver,
    (shim.audible sender.toNat).getLsbD receiver = true ↔ Admits rules sender receiver

namespace Shim

variable {shim : Shim} {sender : Int}

def withMasks (shim : Shim) (audible : Nat → BitVec 64) (hasRule : BitVec 64) : Shim :=
  { shim with audible := audible, hasRule := hasRule }

@[simp] theorem withMasks_audible (audible : Nat → BitVec 64) (hasRule : BitVec 64) :
    (shim.withMasks audible hasRule).audible = audible := rfl

@[simp] theorem withMasks_hasRule (audible : Nat → BitVec 64) (hasRule : BitVec 64) :
    (shim.withMasks audible hasRule).hasRule = hasRule := rfl

/-- A shim that may apply what it is told. -/
def Usable (shim : Shim) : Prop := shim.listenHookInstalled = true ∧ shim.listenDegraded = false

theorem audibleSet_taken (usable : shim.Usable) (inside : inRange sender = true) (mask : BitVec 64) :
    shim.audibleSet sender mask = (shim.withMasks (Function.update shim.audible sender.toNat mask)
      (shim.hasRule ||| slotBit sender.toNat),true) := by
  simp [audibleSet,usable.1,usable.2,inside,withMasks]

theorem audibleClear_taken (usable : shim.Usable) (inside : inRange sender = true) :
    shim.audibleClear sender = shim.withMasks (Function.update shim.audible sender.toNat 0)
      (shim.hasRule &&& ~~~slotBit sender.toNat) := by
  simp [audibleClear,usable.1,usable.2,inside,withMasks]

theorem audibleSet_refused (refused : ¬(shim.Usable ∧ inRange sender = true)) (mask : BitVec 64) :
    shim.audibleSet sender mask = (shim,false) := by
  unfold audibleSet
  split_ifs with unusable outside
  · rfl
  · rfl
  · simp only [Bool.or_eq_true,not_or,Bool.not_eq_true'] at unusable
    exact absurd ⟨⟨by simpa using unusable.1,by simpa using unusable.2⟩,by simpa using outside⟩ refused

theorem audibleClear_refused (refused : ¬(shim.Usable ∧ inRange sender = true)) : shim.audibleClear sender = shim := by
  unfold audibleClear
  split_ifs with unusable outside
  · rfl
  · rfl
  · simp only [Bool.or_eq_true,not_or,Bool.not_eq_true'] at unusable
    exact absurd ⟨⟨by simpa using unusable.1,by simpa using unusable.2⟩,by simpa using outside⟩ refused

/-- Setting a sender's mask, and clearing it, leave every other sender alone. -/
theorem set_bit (small : sender.toNat < maxClientSlots) (hasRule : BitVec 64) (other : Nat) :
    (hasRule ||| slotBit sender.toNat).getLsbD other = (hasRule.getLsbD other || decide (other = sender.toNat)) := by
  rw [BitVec.getLsbD_or,slotBit_getLsbD small]

theorem clear_bit (small : sender.toNat < maxClientSlots) (hasRule : BitVec 64) (other : Nat) :
    (hasRule &&& ~~~slotBit sender.toNat).getLsbD other = (hasRule.getLsbD other && decide (other ≠ sender.toNat)) := by
  rw [BitVec.getLsbD_and,BitVec.getLsbD_not,slotBit_getLsbD small]
  cases bit : hasRule.getLsbD other with
  | false => simp
  | true =>
    have : other < 64 := BitVec.lt_of_getLsbD bit
    simp [this]

end Shim

namespace Carries

variable {shim : Shim} {rules : FoldTable Int (BitVec 64)} {sender : Int}

theorem congr {later : Shim} {left : FoldTable Int (BitVec 64)} (carries : Carries shim rules sender)
    (bit : later.hasRule.getLsbD sender.toNat = shim.hasRule.getLsbD sender.toNat)
    (mask : later.audible sender.toNat = shim.audible sender.toNat)
    (same : ∀ owner, left.get owner sender = rules.get owner sender) : Carries later left sender := by
  constructor
  · simp only [bit,Ruled,same]
    exact carries.ruled
  · simp only [mask,Ruled,Admits,same]
    exact carries.admits

/-- A pushed mask that is what the rules admit. -/
theorem set (inside : Shim.inRange sender = true) {mask : BitVec 64} (ruled : Ruled rules sender)
    (admits : ∀ receiver, mask.getLsbD receiver = true ↔ Admits rules sender receiver) :
    Carries (shim.withMasks (Function.update shim.audible sender.toNat mask) (shim.hasRule ||| slotBit sender.toNat))
      rules sender where
  ruled := by
    rw [Shim.withMasks_hasRule,Shim.set_bit ((inRange_iff sender).mp inside).2]
    simpa using ruled
  admits _ receiver := by
    rw [Shim.withMasks_audible,Function.update_self]
    exact admits receiver

theorem clear (inside : Shim.inRange sender = true) (unruled : ¬Ruled rules sender) :
    Carries (shim.withMasks (Function.update shim.audible sender.toNat 0) (shim.hasRule &&& ~~~slotBit sender.toNat))
      rules sender where
  ruled := by
    rw [Shim.withMasks_hasRule,Shim.clear_bit ((inRange_iff sender).mp inside).2]
    simpa using unruled
  admits ruled := absurd ruled unruled

/-- Where another sender's mask is set or cleared. -/
theorem other {changed : Int} (carries : Carries shim rules sender) (inside : Shim.inRange sender = true)
    (there : Shim.inRange changed = true) (different : sender ≠ changed) (mask : BitVec 64) :
    Carries (shim.withMasks (Function.update shim.audible changed.toNat mask) (shim.hasRule ||| slotBit changed.toNat))
      rules sender ∧
    Carries (shim.withMasks (Function.update shim.audible changed.toNat mask) (shim.hasRule &&& ~~~slotBit changed.toNat))
      rules sender := by
  have apart : sender.toNat ≠ changed.toNat := fun same => different (toNat_inj inside there same)
  have small := ((inRange_iff changed).mp there).2
  constructor
  · refine carries.congr ?_ (Function.update_of_ne apart _ _) fun _ => rfl
    rw [Shim.withMasks_hasRule,Shim.set_bit small]
    simp [apart]
  · refine carries.congr ?_ (Function.update_of_ne apart _ _) fun _ => rfl
    rw [Shim.withMasks_hasRule,Shim.clear_bit small]
    simp [apart]

end Carries

namespace System

variable {system : System}

def Settled (system : System) (sender : Int) : Prop := Carries system.shim system.rules sender

/-- What every run keeps. -/
structure Invariant (system : System) : Prop where
  inside : ∀ owner sender mask, system.rules.get owner sender = some mask → Shim.inRange sender = true
  taken : ∀ owner sender mask, system.rules.get owner sender = some mask →
    system.engineOps = true ∧ system.shim.listenHookInstalled = true
  settled : system.shim.listenDegraded = false → ∀ sender, Shim.inRange sender = true → system.Settled sender
  minted : system.connections.Minted

theorem load_invariant (engineOps engineCallsOk listenHookInstalled : Bool) (cells : Int → Int → Bool) :
    (load engineOps engineCallsOk listenHookInstalled cells).Invariant where
  inside := by simp [load]
  taken := by simp [load]
  settled _ _ _ := ⟨by simp [load,Ruled],by simp [load,Ruled]⟩
  minted := .new

def withMasks (system : System) (audible : Nat → BitVec 64) (hasRule : BitVec 64) : System :=
  { system with shim := system.shim.withMasks audible hasRule }

/-- Pushing a sender settles it and leaves the others as they are. -/
theorem push_spec {sender : Int} (inside : Shim.inRange sender = true) (ops : system.engineOps = true)
    (installed : system.shim.listenHookInstalled = true) :
    ∃ audible hasRule, system.voiceRecomputeAndPush sender = system.withMasks audible hasRule ∧
      (system.shim.listenDegraded = false → (system.withMasks audible hasRule).Settled sender ∧
        ∀ other, Shim.inRange other = true → other ≠ sender → system.Settled other →
          (system.withMasks audible hasRule).Settled other) := by
  have running : ¬(!system.engineOps) = true := by simp [ops]
  simp only [voiceRecomputeAndPush,if_neg running,voiceMerged]
  by_cases healthy : system.shim.listenDegraded = false
  · have usable : system.shim.Usable := ⟨installed,healthy⟩
    cases folded : system.rules.merged sender with
    | none =>
      have unruled : ¬Ruled system.rules sender := by rw [ruled_iff,folded]; simp
      dsimp only
      rw [Shim.audibleClear_taken usable inside]
      exact ⟨_,_,rfl,fun _ => ⟨.clear inside unruled,fun other here different settled =>
        (Carries.other settled here inside different 0).2⟩⟩
    | some mask =>
      have ruled : Ruled system.rules sender := by rw [ruled_iff,folded]; simp
      dsimp only
      rw [Shim.audibleSet_taken usable inside]
      exact ⟨_,_,rfl,fun _ => ⟨.set inside ruled (merged_admits folded),fun other here different settled =>
        (Carries.other settled here inside different mask).1⟩⟩
  · have refused : ¬(system.shim.Usable ∧ Shim.inRange sender = true) := fun usable => healthy usable.1.2
    refine ⟨system.shim.audible,system.shim.hasRule,?_,fun still => absurd still healthy⟩
    cases system.rules.merged sender with
    | none =>
      dsimp only
      rw [Shim.audibleClear_refused refused]
      rfl
    | some mask =>
      dsimp only
      rw [Shim.audibleSet_refused refused]
      rfl

theorem pushes_spec {senders : List Int} (inside : ∀ sender ∈ senders, Shim.inRange sender = true)
    (running : senders ≠ [] → system.engineOps = true ∧ system.shim.listenHookInstalled = true)
    (settled : system.shim.listenDegraded = false → ∀ sender, Shim.inRange sender = true → sender ∉ senders →
      system.Settled sender) :
    ∃ audible hasRule, senders.foldl voiceRecomputeAndPush system = system.withMasks audible hasRule ∧
      (system.shim.listenDegraded = false → ∀ sender, Shim.inRange sender = true →
        (system.withMasks audible hasRule).Settled sender) := by
  induction senders generalizing system with
  | nil => exact ⟨system.shim.audible,system.shim.hasRule,rfl,fun healthy sender here => settled healthy sender here (by simp)⟩
  | cons sender rest ih =>
    have running := running (by simp)
    obtain ⟨audible,hasRule,pushed,carries⟩ := push_spec (inside sender List.mem_cons_self) running.1 running.2
    rw [List.foldl_cons,pushed]
    refine ih (fun other member => inside other (List.mem_cons_of_mem _ member)) (fun _ => running)
      fun healthy other here absent => ?_
    by_cases same : other = sender
    · exact same ▸ (carries healthy).1
    · exact (carries healthy).2 other here same (settled healthy other here (by simp [same,absent]))

namespace Invariant

/-- Dropping rules, and pushing every sender that lost one. -/
theorem drop (invariant : system.Invariant) {rules : FoldTable Int (BitVec 64)} {senders : List Int}
    (fewer : ∀ owner sender mask, rules.get owner sender = some mask → system.rules.get owner sender = some mask)
    (kept : ∀ sender ∉ senders, ∀ owner, rules.get owner sender = system.rules.get owner sender)
    (lost : ∀ sender ∈ senders, Ruled system.rules sender) :
    (senders.foldl voiceRecomputeAndPush { system with rules := rules }).Invariant := by
  have inside : ∀ sender ∈ senders, Shim.inRange sender = true := by
    intro sender member
    obtain ⟨owner,mask,held⟩ := lost sender member
    exact invariant.inside owner sender mask held
  have running : senders ≠ [] → system.engineOps = true ∧ system.shim.listenHookInstalled = true := by
    intro some
    obtain ⟨sender,member⟩ := List.exists_mem_of_ne_nil senders some
    obtain ⟨owner,mask,held⟩ := lost sender member
    exact invariant.taken owner sender mask held
  have others : system.shim.listenDegraded = false → ∀ sender, Shim.inRange sender = true → sender ∉ senders →
      ({ system with rules := rules } : System).Settled sender :=
    fun healthy sender here absent => (invariant.settled healthy sender here).congr rfl rfl (kept sender absent)
  obtain ⟨audible,hasRule,run,settled⟩ := @pushes_spec { system with rules := rules } senders inside running others
  rw [run]
  exact {
    inside := fun owner sender mask here => invariant.inside owner sender mask (fewer _ _ _ here)
    taken := fun owner sender mask here => invariant.taken owner sender mask (fewer _ _ _ here)
    settled := settled
    minted := invariant.minted }

theorem voiceAudibleClear (invariant : system.Invariant) (owner : String) (sender : Int) :
    (system.voiceAudibleClear owner sender).1.Invariant := by
  have fewer : ∀ other found mask, (system.rules.remove owner sender).1.get other found = some mask →
      system.rules.get other found = some mask := by
    intro other found mask here
    rw [FoldTable.get_remove] at here
    split at here
    · contradiction
    · exact here
  unfold System.voiceAudibleClear
  split
  · exact invariant
  · dsimp only
    split
    · rename_i held
      rw [FoldTable.remove_removed,Option.isSome_iff_exists] at held
      refine @drop _ invariant _ [sender] fewer ?_ ?_
      · intro found absent other
        rw [FoldTable.get_remove,if_neg fun same => absent (by simp [same.2])]
      · intro found member
        obtain rfl : found = sender := by simpa using member
        exact ⟨owner,held⟩
    · rename_i absent
      rw [FoldTable.remove_removed,Option.not_isSome_iff_eq_none] at absent
      refine @drop _ invariant _ [] fewer (fun found _ other => ?_) (by simp)
      rw [FoldTable.get_remove]
      split
      · rename_i same
        rw [same.1,same.2,absent]
      · rfl

theorem voiceRemoveOwner (invariant : system.Invariant) (owner : String) : (system.voiceRemoveOwner owner).Invariant := by
  refine invariant.drop ?_ ?_ ?_
  · intro other found mask here
    rw [FoldTable.get_removeOwner] at here
    split at here
    · contradiction
    · exact here
  · intro found absent other
    rw [FoldTable.get_removeOwner]
    split
    · rename_i same
      rw [FoldTable.mem_removeOwner] at absent
      push Not at absent
      exact (Option.eq_none_iff_forall_ne_some.mpr (same ▸ absent)).symm
    · rfl
  · intro found member
    exact ⟨owner,(FoldTable.mem_removeOwner system.rules owner found).mp member⟩

theorem voiceClearSlot (invariant : system.Invariant) (sender : Int) : (system.voiceClearSlot sender).Invariant := by
  have fewer : ∀ owner found mask, (system.rules.clearKey sender).1.get owner found = some mask →
      system.rules.get owner found = some mask := by
    intro owner found mask here
    rw [FoldTable.get_clearKey] at here
    split at here
    · contradiction
    · exact here
  unfold System.voiceClearSlot
  dsimp only
  split
  · rename_i any
    refine @drop _ invariant _ [sender] fewer ?_ ?_
    · intro found absent owner
      rw [FoldTable.get_clearKey,if_neg (by simpa using absent)]
    · intro found member
      obtain rfl : found = sender := by simpa using member
      exact (FoldTable.clearKey_any system.rules found).mp any
  · rename_i none
    rw [FoldTable.clearKey_any] at none
    push Not at none
    refine @drop _ invariant _ [] fewer (fun found _ owner => ?_) (by simp)
    rw [FoldTable.get_clearKey]
    split
    · rename_i same
      exact (same ▸ Option.eq_none_iff_forall_ne_some.mpr (none owner)).symm
    · rfl

theorem voiceAudibleSet (invariant : system.Invariant) (owner : String) (sender : Int) (receivers : List Int) :
    (system.voiceAudibleSet owner sender receivers).1.Invariant := by
  unfold System.voiceAudibleSet
  split
  · exact invariant
  · rename_i inside
    have inside : Shim.inRange sender = true := by simpa using inside
    cases receiverMask receivers with
    | none => exact invariant
    | some mask =>
      dsimp only
      split
      · exact invariant
      · rename_i running
        have running : system.engineOps = true := by simpa using running
        by_cases usable : system.shim.Usable
        · rw [Shim.audibleSet_taken usable inside]
          simp only [Bool.not_true,Bool.false_eq_true,if_false]
          have here (other : String) : (system.rules.insert owner sender mask).get other sender =
              if other = owner then some mask else system.rules.get other sender := by
            rw [FoldTable.get_insert]
            simp
          have apart {found : Int} (different : found ≠ sender) (other : String) :
              (system.rules.insert owner sender mask).get other found = system.rules.get other found := by
            rw [FoldTable.get_insert,if_neg fun same => different same.2]
          refine ⟨?_,?_,?_,invariant.minted⟩
          · intro other found rule held
            by_cases same : found = sender
            · exact same ▸ inside
            · exact invariant.inside other found rule ((apart same other).symm.trans held)
          · exact fun _ _ _ _ => ⟨running,usable.1⟩
          · intro healthy found there
            by_cases same : found = sender
            · subst same
              refine .set inside ⟨owner,mask,(here owner).trans (if_pos rfl)⟩ fun receiver => ?_
              refine (@FoldTable.foldExcept_all_iff _ _ _ _ (fun mask : BitVec 64 => mask.getLsbD receiver = true)
                (mask_andFold receiver) system.rules owner found mask _).trans ?_
              simp only [Admits,here]
              constructor
              · rintro ⟨mine,others⟩ other rule held
                split at held
                · exact Option.some.inj held ▸ mine
                · exact others other rule ‹_› held trivial
              · intro all
                refine ⟨all owner mask (if_pos rfl),fun other rule different held _ => ?_⟩
                exact all other rule ((if_neg different).trans held)
            · have before := @Carries.congr _ _ _ system.shim _ (invariant.settled healthy found there) rfl rfl (apart same)
              exact (before.other there inside same _).1
        · rw [Shim.audibleSet_refused fun both => usable both.1]
          exact invariant

end Invariant

/-- An operation that neither rules nor masks see. It may find out that the hook cannot be trusted. -/
structure Quiet (before after : System) : Prop where
  rules : after.rules = before.rules
  engineOps : after.engineOps = before.engineOps
  connections : after.connections = before.connections
  installed : after.shim.listenHookInstalled = before.shim.listenHookInstalled
  audible : after.shim.audible = before.shim.audible
  hasRule : after.shim.hasRule = before.shim.hasRule
  healthy : after.shim.listenDegraded = false → before.shim.listenDegraded = false

namespace Quiet

theorem refl (system : System) : Quiet system system := ⟨rfl,rfl,rfl,rfl,rfl,rfl,id⟩

theorem trans {first second third : System} (one : Quiet first second) (two : Quiet second third) : Quiet first third where
  rules := two.rules.trans one.rules
  engineOps := two.engineOps.trans one.engineOps
  connections := two.connections.trans one.connections
  installed := two.installed.trans one.installed
  audible := two.audible.trans one.audible
  hasRule := two.hasRule.trans one.hasRule
  healthy := one.healthy ∘ two.healthy

theorem setClientListening (system : System) (receiver sender : Int) (listen : Bool) :
    Quiet system (system.setClientListening receiver sender listen) := by
  have fired (shim : Shim) : (shim.firstFire receiver sender).listenHookInstalled = shim.listenHookInstalled ∧
      (shim.firstFire receiver sender).audible = shim.audible ∧ (shim.firstFire receiver sender).hasRule = shim.hasRule ∧
      ((shim.firstFire receiver sender).listenDegraded = false → shim.listenDegraded = false) := by
    unfold Shim.firstFire
    split
    · exact ⟨rfl,rfl,rfl,id⟩
    · refine ⟨rfl,rfl,rfl,fun healthy => ?_⟩
      simp only [Bool.or_eq_false_iff] at healthy
      exact healthy.1
  unfold System.setClientListening
  split
  · have kept : (system.shim.setClientListening receiver sender listen).1 = system.shim.firstFire receiver sender := by
      simp only [Shim.setClientListening]
      split <;> rfl
    obtain ⟨installed,audible,hasRule,healthy⟩ := fired system.shim
    rw [← kept] at installed audible hasRule healthy
    exact ⟨rfl,rfl,rfl,installed,audible,hasRule,healthy⟩
  · exact ⟨rfl,rfl,rfl,rfl,rfl,rfl,id⟩

theorem maybeValidateVoiceListening (system : System) : Quiet system system.maybeValidateVoiceListening := by
  unfold System.maybeValidateVoiceListening
  split
  · exact .refl system
  · rename_i unproven
    split
    · exact .refl system
    · split
      · exact .refl system
      · rename_i first second _
        have flips := (setClientListening system first second (!system.getClientListening second first)).trans
          (setClientListening _ first second (system.getClientListening second first))
        dsimp only
        split
        · exact ⟨flips.rules,flips.engineOps,flips.connections,flips.installed,flips.audible,flips.hasRule,flips.healthy⟩
        · exact ⟨flips.rules,flips.engineOps,flips.connections,flips.installed,flips.audible,flips.hasRule,by simp⟩

theorem voiceSetMuted (system : System) (slot : Int) (muted : Bool) : Quiet system (system.voiceSetMuted slot muted).1 := by
  unfold System.voiceSetMuted
  split
  · exact .refl system
  · dsimp only
    have recorded : Quiet system
        { system with shim := { system.shim with muted := Function.update system.shim.muted slot.toNat muted } } :=
      ⟨rfl,rfl,rfl,rfl,rfl,rfl,id⟩
    split
    · exact recorded
    · split
      · refine recorded.trans ?_
        generalize { system with shim := { system.shim with muted := Function.update system.shim.muted slot.toNat muted } } =
          current
        induction List.range maxClientSlots generalizing current with
        | nil => exact .refl current
        | cons receiver rest ih =>
          rw [List.foldl_cons]
          refine Quiet.trans ?_ (ih _)
          split
          · exact .refl current
          · exact setClientListening current receiver slot false
      · exact recorded

theorem setSignon (system : System) (slot : Int) (phase : Nat) : Quiet system (system.setSignon slot phase) := by
  unfold System.setSignon
  split
  · exact .refl system
  · exact ⟨rfl,rfl,rfl,rfl,rfl,rfl,id⟩

end Quiet

namespace Invariant

theorem quiet {after : System} (invariant : system.Invariant) (same : Quiet system after) : after.Invariant where
  inside owner sender mask here := invariant.inside owner sender mask (same.rules ▸ here)
  taken owner sender mask here := by
    rw [same.engineOps,same.installed]
    exact invariant.taken owner sender mask (same.rules ▸ here)
  settled healthy sender inside := by
    refine (invariant.settled (same.healthy healthy) sender inside).congr ?_ ?_ ?_
    · rw [same.hasRule]
    · rw [same.audible]
    · rw [same.rules]
      exact fun _ => rfl
  minted := same.connections ▸ invariant.minted

theorem connections {later : LiveTable Int Unit} (invariant : system.Invariant)
    (evolves : system.connections.Evolves later) : ({ system with connections := later } : System).Invariant :=
  ⟨invariant.inside,invariant.taken,invariant.settled,invariant.minted.evolves evolves⟩

theorem clientEnd (invariant : system.Invariant) (slot : Int) (token : Nat) : (system.clientEnd slot token).Invariant := by
  unfold System.clientEnd
  split
  · exact invariant
  · exact (invariant.connections (.remove system.connections slot)).voiceClearSlot slot

theorem clientBegin (invariant : system.Invariant) (slot : Int) : (system.clientBegin slot).Invariant := by
  unfold System.clientBegin
  split
  · exact invariant
  · exact (invariant.clientEnd slot _).connections (.insert _ slot ())

theorem clientEnsure (invariant : system.Invariant) (slot : Int) : (system.clientEnsure slot).Invariant := by
  unfold System.clientEnsure
  split
  · exact invariant
  · exact invariant.clientBegin slot

end Invariant

theorem isMatch_generation {slot : Int} (known : system.generation slot ≠ 0) :
    system.isMatch slot (system.generation slot) = true := by
  simp only [generation,isMatch,LiveTable.isLive] at known ⊢
  cases held : system.connections.idOf slot with
  | none => simp [held] at known
  | some id =>
    rw [held] at known
    simpa using known

theorem retire_unknown {slot : Int} (unknown : system.generation slot = 0) :
    system.retire slot = { system with shim := system.shim.clearClientSlotState slot } := by
  simp [System.retire,clientEnd,isMatch,unknown]

theorem retire_known {slot : Int} (known : system.generation slot ≠ 0) :
    system.retire slot = ({ system with
      shim := system.shim.clearClientSlotState slot, connections := system.connections.remove slot } : System).voiceClearSlot slot := by
  have matched := isMatch_generation known
  simp only [isMatch] at matched
  simp [System.retire,clientEnd,isMatch,matched]

/-- The shim forgets a slot: nothing else changes, and the slot is settled if the host has no rule for it. -/
theorem Invariant.forget (invariant : system.Invariant) {slot : Int} (inside : Shim.inRange slot = true)
    (healthy : system.shim.listenDegraded = false) {sender : Int} (here : Shim.inRange sender = true)
    (apart : sender = slot → ¬Ruled system.rules slot) :
    Carries (system.shim.clearClientSlotState slot) system.rules sender := by
  have outside : ¬(!Shim.inRange slot) = true := by simp [inside]
  unfold Shim.clearClientSlotState
  rw [if_neg outside]
  by_cases same : sender = slot
  · subst same
    exact (@Carries.clear system.shim _ _ inside (apart rfl)).congr rfl rfl fun _ => rfl
  · exact ((invariant.settled healthy sender here).other here inside same 0).2.congr rfl rfl fun _ => rfl

theorem clearClientSlotState_outside {shim : Shim} {slot : Int} (outside : Shim.inRange slot = false) :
    shim.clearClientSlotState slot = shim := by
  simp [Shim.clearClientSlotState,outside]

theorem clearClientSlotState_flags (shim : Shim) (slot : Int) :
    (shim.clearClientSlotState slot).listenHookInstalled = shim.listenHookInstalled ∧
    (shim.clearClientSlotState slot).listenDegraded = shim.listenDegraded := by
  unfold Shim.clearClientSlotState
  split <;> exact ⟨rfl,rfl⟩

theorem Invariant.retire (invariant : system.Invariant) {slot : Int} (may : permitted system (.retired slot)) :
    (system.retire slot).Invariant := by
  cases inside : Shim.inRange slot with
  | false =>
    have same : system.retire slot = system.clientEnd slot (system.generation slot) := by
      unfold System.retire
      rw [clearClientSlotState_outside inside]
    exact same ▸ invariant.clientEnd slot _
  | true =>
    obtain ⟨installed,degraded⟩ := clearClientSlotState_flags system.shim slot
    by_cases unknown : system.generation slot = 0
    · have unruled : ¬Ruled system.rules slot := by
        rw [ruled_iff,not_not]
        exact may.resolve_left fun known => known unknown
      rw [retire_unknown unknown]
      exact {
        inside := invariant.inside
        taken := fun owner sender mask here => ⟨(invariant.taken owner sender mask here).1,
          installed.trans (invariant.taken owner sender mask here).2⟩
        settled := fun healthy sender here => invariant.forget inside (degraded ▸ healthy) here fun _ => unruled
        minted := invariant.minted }
    · -- The host drops its rules for the slot, and pushes once more what the shim has already forgotten.
      rw [retire_known unknown]
      have cleared (owner : String) (found : Int) :
          (system.rules.clearKey slot).1.get owner found = if found = slot then none else system.rules.get owner found :=
        FoldTable.get_clearKey system.rules owner slot found
      have unruled : ¬Ruled (system.rules.clearKey slot).1 slot := by
        rintro ⟨owner,mask,held⟩
        rw [cleared,if_pos rfl] at held
        contradiction
      have fewer {owner : String} {found : Int} {mask : BitVec 64}
          (held : (system.rules.clearKey slot).1.get owner found = some mask) : system.rules.get owner found = some mask := by
        rw [cleared] at held
        split at held
        · contradiction
        · exact held
      have base : ({ system with
          shim := system.shim.clearClientSlotState slot, rules := (system.rules.clearKey slot).1,
          connections := system.connections.remove slot } : System).Invariant := {
        inside := fun owner sender mask here => invariant.inside owner sender mask (fewer here)
        taken := fun owner sender mask here => ⟨(invariant.taken owner sender mask (fewer here)).1,
          installed.trans (invariant.taken owner sender mask (fewer here)).2⟩
        settled := by
          intro healthy sender here
          by_cases same : sender = slot
          · subst same
            unfold Settled Shim.clearClientSlotState
            rw [if_neg (by simp [inside])]
            exact (@Carries.clear system.shim _ _ inside unruled).congr rfl rfl fun _ => rfl
          · refine (invariant.forget inside (degraded ▸ healthy) here fun same' => absurd same' same).congr rfl rfl fun owner => ?_
            rw [cleared,if_neg same]
        minted := invariant.minted.evolves (.remove _ slot) }
      unfold System.voiceClearSlot
      dsimp only
      split
      · rename_i any
        obtain ⟨owner,mask,held⟩ := (FoldTable.clearKey_any system.rules slot).mp any
        have running := invariant.taken owner slot mask held
        obtain ⟨audible,hasRule,pushed,carries⟩ := @push_spec { system with
          shim := system.shim.clearClientSlotState slot, rules := (system.rules.clearKey slot).1,
          connections := system.connections.remove slot } slot inside running.1 (installed.trans running.2)
        rw [pushed]
        refine ⟨base.inside,base.taken,fun healthy sender here => ?_,base.minted⟩
        by_cases same : sender = slot
        · exact same ▸ (carries healthy).1
        · exact (carries healthy).2 sender here same (base.settled healthy sender here)
      · exact base

theorem step_invariant (invariant : system.Invariant) {event : Event} (may : permitted system event) :
    (system.step event).Invariant := by
  cases event with
  | audibleSet owner sender receivers => exact invariant.voiceAudibleSet owner sender receivers
  | audibleClear owner sender => exact invariant.voiceAudibleClear owner sender
  | removeOwner owner => exact invariant.voiceRemoveOwner owner
  | setMuted slot muted => exact invariant.quiet (.voiceSetMuted system slot muted)
  | connected slot => exact (invariant.quiet (.setSignon system slot signonConnected)).clientBegin slot
  | progressed slot phase active =>
    have phased := invariant.quiet (.setSignon system slot phase)
    simp only [step]
    split
    · exact (phased.quiet (.maybeValidateVoiceListening _)).clientEnsure slot
    · exact phased.clientEnsure slot
  | retired slot => exact invariant.retire may
  | listening receiver sender listen => exact invariant.quiet (.setClientListening system receiver sender listen)

theorem reachable_invariant (reachable : Reachable system) : system.Invariant := by
  induction reachable with
  | load engineOps engineCallsOk listenHookInstalled cells => exact load_invariant engineOps engineCallsOk listenHookInstalled cells
  | step may _ ih => exact step_invariant ih may

end System

end S2Script.VoiceHearability
