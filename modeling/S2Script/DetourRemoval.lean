import S2Script.DetourInstall

/-! Removing every detour. The patches are undone in the order they were made, so a byte that
several of them stole ends as the last of them found it. -/
namespace S2Script.Detours

open CodeMemory

/-- One call of `Install`. -/
structure Call where
  os : Os
  target : Address
  handler : Address
  given : Bool
  isExec : Option (Address → Bool)

def Call.result (decode : Decoder) (p : Process) (c : Call) : Process × InstallResult :=
  install decode c.os p c.target c.handler c.given c.isExec

def run (decode : Decoder) (p : Process) (calls : List Call) : Process :=
  calls.foldl (fun p c => (c.result decode p).1) p

/-- The call succeeds and overwrites the byte. -/
def Steals (decode : Decoder) (p : Process) (c : Call) (a : Address) : Prop :=
  (c.result decode p).2.ok = true ∧ Within c.target (c.result decode p).2.stolen a

/-- Not a byte of a trampoline page. -/
def OutsidePages (p : Process) (a : Address) : Prop :=
  ∀ patch ∈ p.patches, ¬ Within patch.trampoline patch.trampSize a

/-- The last call that stole the byte found what was there before the first call. -/
def FoundUntouched (decode : Decoder) (p : Process) (calls : List Call) (a : Address) : Prop :=
  ∀ before c after, calls = before ++ c :: after → Steals decode (run decode p before) c a →
    (∀ between c' rest, after = between ++ c' :: rest →
      ¬ Steals decode (run decode p (before ++ c :: between)) c' a) →
    (run decode p before).memory a = p.memory a

section Restoring

/-- What the loop of `RemoveAll` leaves, when `mprotect` succeeds. -/
def restored (patches : List Patch) (memory : Memory) : Memory :=
  patches.foldl (fun memory patch => write memory patch.target patch.orig) memory

theorem removeAll_memory (p : Process) : (removeAll (fun _ => true) p).memory = restored p.patches p.memory := rfl

theorem restored_congr {patches : List Patch} {memory memory' : Memory} {a : Address} (same : memory a = memory' a) :
    restored patches memory a = restored patches memory' a := by
  induction patches generalizing memory memory' with
  | nil => exact same
  | cons patch rest ih =>
    apply ih
    simp only [write,same]

theorem restored_snoc (patches : List Patch) (patch : Patch) (memory : Memory) :
    restored (patches ++ [patch]) memory = write (restored patches memory) patch.target patch.orig := by
  simp only [restored,List.foldl_append,List.foldl_cons,List.foldl_nil]

end Restoring

section Runs

variable {decode : Decoder} {p : Process} {c : Call} {calls : List Call} {a : Address}

theorem run_snoc : run decode p (calls ++ [c]) = (c.result decode (run decode p calls)).1 := by
  simp only [run,List.foldl_append,List.foldl_cons,List.foldl_nil]

/-- What a call does to the bytes outside its page and to the patch list. -/
theorem result_cases (reports : Reports decode) (protect : c.os.protect = true) :
    let r := c.result decode p
    (r.2.ok = false ∧ r.1.memory = p.memory ∧ r.1.patches = p.patches) ∨
    ∃ patch, r.2.ok = true ∧ r.1.patches = p.patches ++ [patch] ∧ patch.target = c.target ∧
      patch.orig.length = r.2.stolen ∧
      ∀ a, ¬ Within patch.trampoline patch.trampSize a →
        (Within c.target r.2.stolen a → patch.orig[(a - c.target).toNat]? = some (p.memory a)) ∧
        (¬ Within c.target r.2.stolen a → r.1.memory a = p.memory a) := by
  intro r
  rcases @install_cases decode c.os p c.target c.handler c.given c.isExec with ⟨memory,patches,failed⟩ | ⟨page,near,built,q,prepared,memory,patches,made⟩
  · exact .inl ⟨failed,memory,patches⟩
  · change r = _ at made
    obtain ⟨_,progress⟩ := built_progress reports prepared.made prepared.ok
    have emitted : built.out.length = built.emitted := progress.length.trans progress.emitted.symm
    have cap : built.emitted ≤ kMaxSteal := progress.emitted ▸ progress.cap
    have steal := progress.emitted
    have room := prepared.room
    rcases @patch_cases c.os q c.target c.handler page near built with ⟨_,_,_,jumps⟩ | ⟨jump,_,jumps,memory',patches',result⟩
    · -- a near page is within reach of its jump, so nothing fails once `mprotect` succeeded
      obtain ⟨jump,reaches⟩ := @Prepared.reaches _ _ _ _ c.handler _ _ _ _ prepared cap
      rw [reaches] at jumps
      cases jumps protect
    · have long := patchJump_length jumps
      have enough := (built_progress reports prepared.made prepared.ok).1
      have patched : (patchBytes jump built.steal).length = built.steal := by
        simp only [patchBytes,List.length_append,List.length_replicate]
        omega
      have stolen : r.2.stolen = built.steal := by rw [made,result]
      have outside : ∀ a, ¬ Within page c.os.pageSize a → layOut q.memory page c.target c.handler built a = p.memory a := by
        intro a free
        rw [layOut_eq emitted cap,write_outside,memory]
        intro inside
        have length := @pageBytes_length c.target c.handler _ emitted
        simp only [Within] at inside free
        omega
      refine .inr ⟨_,by rw [made,result],by rw [made,patches',patches],rfl,?_,?_⟩
      · rw [stolen,slice_length]
      · intro a free
        rw [stolen]
        constructor
        · intro inside
          change (slice (view _ c.target) built.steal)[(a - c.target).toNat]? = _
          rw [slice_get inside]
          simp only [view,BitVec.ofNat_toNat,BitVec.setWidth_eq,Option.some.injEq]
          rw [BitVec.add_comm,BitVec.sub_add_cancel]
          exact outside a free
        · intro apart
          rw [made,memory',write_outside (by rwa [Within,patched])]
          exact outside a free

theorem run_pages (reports : Reports decode) (protect : c.os.protect = true)
    (free : OutsidePages (run decode p (calls ++ [c])) a) : OutsidePages (run decode p calls) a := by
  intro patch member
  apply free
  rw [run_snoc]
  rcases result_cases (p := run decode p calls) reports protect with ⟨_,_,patches⟩ | ⟨_,_,patches,_⟩
  · rw [patches]
    exact member
  · rw [patches]
    exact List.mem_append_left _ member

theorem run_pages_before (reports : Reports decode) {before : List Call} :
    ∀ after : List Call, (∀ c ∈ after, c.os.protect = true) →
      OutsidePages (run decode p (before ++ after)) a → OutsidePages (run decode p before) a := by
  intro after
  induction after using List.reverseRecOn with
  | nil =>
    intro _ free
    rwa [List.append_nil] at free
  | append_singleton after c ih =>
    intro protect free
    rw [← List.append_assoc] at free
    exact ih (fun d member => protect d (List.mem_append_left _ member))
      (run_pages reports (protect c (List.mem_append_right _ (List.mem_singleton.mpr rfl))) free)

/-- A byte that no call steals stays. -/
theorem run_untouched (reports : Reports decode) :
    ∀ calls : List Call, (∀ c ∈ calls, c.os.protect = true) → OutsidePages (run decode p calls) a →
      (∀ before c after, calls = before ++ c :: after → ¬ Steals decode (run decode p before) c a) →
      (run decode p calls).memory a = p.memory a := by
  intro calls
  induction calls using List.reverseRecOn with
  | nil =>
    intro _ _ _
    rfl
  | append_singleton calls c ih =>
    intro protect free never
    have protects := protect c (List.mem_append_right _ (List.mem_singleton.mpr rfl))
    have earlier := ih (fun d member => protect d (List.mem_append_left _ member)) (run_pages reports protects free)
      fun before d after split => never before d (after ++ [c]) (by rw [split,List.append_assoc]; rfl)
    have away := never calls c [] rfl
    rw [run_snoc] at free ⊢
    rcases result_cases (p := run decode p calls) reports protects with
      ⟨_,memory,_⟩ | ⟨patch,ok,patches,_,_,bytes⟩
    · rw [memory,earlier]
    · have apart := free patch (by rw [patches]; exact List.mem_append_right _ (List.mem_singleton.mpr rfl))
      rw [(bytes a apart).2 (fun inside => away ⟨ok,inside⟩),earlier]

/-- What `RemoveAll` leaves after one more call: the byte that call found, or what it left before. -/
theorem restored_snoc_call (reports : Reports decode) (protect : c.os.protect = true)
    (free : OutsidePages (run decode p (calls ++ [c])) a) :
    let before := run decode p calls
    let after := run decode p (calls ++ [c])
    (Steals decode before c a → restored after.patches after.memory a = before.memory a) ∧
    (¬ Steals decode before c a → restored after.patches after.memory a = restored before.patches before.memory a) := by
  rw [run_snoc] at free ⊢
  rcases result_cases (p := run decode p calls) reports protect with
    ⟨failed,memory,patches⟩ | ⟨patch,ok,patches,target,length,bytes⟩
  · simp only [Steals,failed,memory,patches]
    exact ⟨nofun,fun _ => trivial⟩
  · have apart := free patch (by rw [patches]; exact List.mem_append_right _ (List.mem_singleton.mpr rfl))
    obtain ⟨found,kept⟩ := bytes a apart
    simp only [Steals,ok,true_and,patches,restored_snoc]
    constructor
    · intro inside
      simp only [write,target,found inside,Option.getD_some]
    · intro away
      rw [write_outside (by rwa [target,Within,length])]
      exact restored_congr (kept away)

/-- One more call: its bytes are the ones it found, the others as before. -/
theorem foundUntouched_snoc :
    FoundUntouched decode p (calls ++ [c]) a ↔
      (Steals decode (run decode p calls) c a → (run decode p calls).memory a = p.memory a) ∧
      (¬ Steals decode (run decode p calls) c a → FoundUntouched decode p calls a) := by
  constructor
  · intro found
    refine ⟨fun steals => ?_,fun away before d after split steals last => ?_⟩
    · refine found calls c [] rfl steals fun between c' rest split => ?_
      simp at split
    · refine found before d (after ++ [c]) (by rw [split,List.append_assoc]; rfl) steals fun between c' rest again => ?_
      rcases List.eq_nil_or_concat rest with rfl | ⟨init,final,rfl⟩
      · have same := List.append_inj_right' again rfl
        have start := List.append_inj_left' again rfl
        cases same
        rwa [← start,← split]
      · rw [List.concat_eq_append,← List.cons_append,← List.append_assoc] at again
        exact last between c' init (List.append_inj_left' again rfl)
  · rintro ⟨here,earlier⟩ before d after split steals last
    rcases List.eq_nil_or_concat after with rfl | ⟨init,final,rfl⟩
    · have same := List.append_inj_right' split rfl
      have start := List.append_inj_left' split rfl
      cases same
      rw [← start] at steals ⊢
      exact here steals
    · rw [List.concat_eq_append,← List.cons_append,← List.append_assoc] at split
      have same := List.append_inj_right' split rfl
      have start := List.append_inj_left' split rfl
      cases same
      have away := last init c [] (by rw [List.concat_eq_append])
      rw [← start] at away
      exact earlier away before d init start steals fun between c' rest again =>
        last between c' (rest ++ [c]) (by rw [again,List.concat_eq_append,List.append_assoc]; rfl)

theorem restored_iff (reports : Reports decode) (empty : p.patches = []) :
    ∀ calls : List Call, (∀ c ∈ calls, c.os.protect = true) → OutsidePages (run decode p calls) a →
      (restored (run decode p calls).patches (run decode p calls).memory a = p.memory a ↔
        FoundUntouched decode p calls a) := by
  intro calls
  induction calls using List.reverseRecOn with
  | nil =>
    intro _ _
    simp only [run,List.foldl_nil,empty,restored]
    refine ⟨fun _ before d after split => ?_,fun _ => trivial⟩
    simp at split
  | append_singleton calls c ih =>
    intro protect free
    have protects := protect c (List.mem_append_right _ (List.mem_singleton.mpr rfl))
    obtain ⟨stolen,kept⟩ := restored_snoc_call reports protects free
    rw [foundUntouched_snoc]
    by_cases steals : Steals decode (run decode p calls) c a
    · rw [stolen steals]
      simp only [steals,true_implies,not_true_eq_false,false_implies,and_true]
    · rw [kept steals,ih (fun d member => protect d (List.mem_append_left _ member)) (run_pages reports protects free)]
      simp only [steals,false_implies,not_false_eq_true,true_implies,true_and]

end Runs

/-- `RemoveAll` gives every byte of the code back as it was exactly when the last `Install` that stole a
byte had found it so. -/
theorem removeAll_restores (decode : Decoder) (reports : Reports decode) (p : Process) (empty : p.patches = [])
    (calls : List Call) (protect : ∀ c ∈ calls, c.os.protect = true) :
    (∀ a, OutsidePages (run decode p calls) a → (removeAll (fun _ => true) (run decode p calls)).memory a = p.memory a) ↔
      ∀ a, OutsidePages (run decode p calls) a → FoundUntouched decode p calls a := by
  have each := fun a (free : OutsidePages (run decode p calls) a) =>
    restored_iff (a := a) reports empty calls protect free
  exact ⟨fun all a free => (each a free).mp (all a free),fun all a free => (each a free).mpr (all a free)⟩

/-- Detours that share no byte are undone. -/
theorem disjoint_removed (decode : Decoder) (reports : Reports decode) (p : Process) (empty : p.patches = [])
    (calls : List Call) (protect : ∀ c ∈ calls, c.os.protect = true)
    (once : ∀ before c between c' rest a, calls = before ++ c :: between ++ c' :: rest →
      Steals decode (run decode p before) c a → ¬ Steals decode (run decode p (before ++ c :: between)) c' a) :
    ∀ a, OutsidePages (run decode p calls) a →
      (removeAll (fun _ => true) (run decode p calls)).memory a = p.memory a := by
  apply (removeAll_restores decode reports p empty calls protect).mpr
  rintro a free before c after rfl steals _
  -- the call that stole the byte was the only one, so no earlier one touched it
  apply run_untouched reports before (fun d member => protect d (List.mem_append_left _ member))
    (run_pages_before reports (c :: after) (fun d member => protect d (List.mem_append_right _ member)) free)
  rintro first d between rfl stole
  exact once first d between c after a rfl stole steals

section Twice

/-- Five `nop` at 0x10000. -/
def nopProcess : Process where
  memory := fun _ => 0x90
  patches := []
  noFixedNoReplace := false
  forceFarTier := false

def nopCall (page target : Address) : Call where
  os := { oneFreePage with mapFixed := fun a => if a = page then .mapped a else .refused }
  target := target
  handler := 0x30000
  given := true
  isExec := some fun _ => true

theorem nopCall_result {p : Process} {page : Address} {jump : List UInt8} {built : Built}
    (alloc : allocNear (nopCall page 0x10000).os p 0x10000 = (some page,false))
    (run : buildTrampolineBody prologueDecoder (some fun _ => true) (view p.memory 0x10000) 0x10000 page kJmpRel32 = built)
    (five : built.ok = true ∧ built.steal = 5 ∧ built.emitted = 5)
    (jumps : patchJump 0x10000 0x30000 page true 5 = some jump) :
    let r := (nopCall page 0x10000).result prologueDecoder p
    r.1.memory = write (layOut p.memory page 0x10000 0x30000 built) 0x10000 (patchBytes jump 5) ∧
    (∃ orig, r.1.patches = p.patches ++ [⟨0x10000,orig,page,4096⟩]) ∧
    (r.1.noFixedNoReplace = false ∧ r.1.forceFarTier = p.forceFarTier) ∧ r.2 = ⟨true,none,5,true,some page⟩ := by
  obtain ⟨ok,steal,emitted⟩ := five
  have installed : (nopCall page 0x10000).result prologueDecoder p = _ :=
    install_near (show (0x10000 : Address) ≠ 0 ∧ (0x30000 : Address) ≠ 0 by decide) (by show _ ≤ 4096; decide) alloc run ok
  intro r
  change r = _ at installed
  rw [installed]
  simp only [nopCall,oneFreePage,patch,emitted,jumps,steal]
  exact ⟨rfl,⟨_,rfl⟩,⟨rfl,rfl⟩,rfl⟩

def nopBuilt : Built :=
  ⟨true,none,5,5,List.replicate 5 0x90,(buildTrampolineBody prologueDecoder (some fun _ => true)
    (view nopProcess.memory 0x10000) 0x10000 0x110000 kJmpRel32).events⟩

theorem nopBody : buildTrampolineBody prologueDecoder (some fun _ => true) (view nopProcess.memory 0x10000)
    0x10000 0x110000 kJmpRel32 = nopBuilt := by
  have run : ∃ events, buildTrampolineBody prologueDecoder (some fun _ => true) (view nopProcess.memory 0x10000)
      0x10000 0x110000 kJmpRel32 = ⟨true,none,5,5,List.replicate 5 0x90,events⟩ := by
    rw [buildTrampolineBody,buildLoop_next (by decide) rfl,buildLoop_next (by decide) rfl,
      buildLoop_next (by decide) rfl,buildLoop_next (by decide) rfl,buildLoop_next (by decide) rfl,
      buildLoop_done (by decide)]
    exact ⟨_,rfl⟩
  obtain ⟨events,run⟩ := run
  rw [nopBuilt,run]

/-- Two detours of one function: the first one's jump is what `RemoveAll` leaves. -/
theorem second_detour_stays :
    let calls := [nopCall 0x110000 0x10000,nopCall 0x210000 0x10000]
    Reports prologueDecoder ∧ (∀ c ∈ calls, c.os.protect = true) ∧
    OutsidePages (run prologueDecoder nopProcess calls) 0x10000 ∧ nopProcess.memory 0x10000 = 0x90 ∧
    (removeAll (fun _ => true) (run prologueDecoder nopProcess calls)).memory 0x10000 = 0xE9 := by
  have body := nopBody
  obtain ⟨memory,⟨orig,patches⟩,⟨latched,tier⟩,result⟩ := @nopCall_result nopProcess 0x110000 [0xE9,0x0E,0,0x10,0] _ rfl body ⟨rfl,rfl,rfl⟩ (by decide)
  generalize first : ((nopCall 0x110000 0x10000).result prologueDecoder nopProcess).1 = p at memory patches latched tier
  have exact5 : patchBytes [0xE9,0x0E,0,0x10,0] 5 = [0xE9,0x0E,0,0x10,0] := rfl
  rw [exact5] at memory
  have body' : ∃ events, buildTrampolineBody prologueDecoder (some fun _ => true) (view p.memory 0x10000)
      0x10000 0x210000 kJmpRel32 = ⟨true,none,5,5,[0xE9,0x0E,0,0xF0,0xFF],events⟩ := by
    rw [memory,buildTrampolineBody,buildLoop_next (by decide) rfl,buildLoop_done (by decide)]
    exact ⟨_,rfl⟩
  obtain ⟨events',body'⟩ := body'
  have alloc : allocNear (nopCall 0x210000 0x10000).os p 0x10000 = (some 0x210000,false) := by
    simp only [allocNear,latched,tier]
    rfl
  obtain ⟨_,⟨orig',patches'⟩,_,result'⟩ := nopCall_result alloc body' ⟨rfl,rfl,rfl⟩
    (show patchJump 0x10000 0x30000 0x210000 true 5 = some [0xE9,0x0E,0,0x20,0] by decide)
  have once : run prologueDecoder nopProcess [nopCall 0x110000 0x10000] = p := first
  have twice : run prologueDecoder nopProcess [nopCall 0x110000 0x10000,nopCall 0x210000 0x10000] =
      ((nopCall 0x210000 0x10000).result prologueDecoder p).1 := by rw [← first]; rfl
  have outside : OutsidePages (run prologueDecoder nopProcess [nopCall 0x110000 0x10000,nopCall 0x210000 0x10000])
      0x10000 := by
    intro patch member
    rw [twice,patches',patches] at member
    simp only [nopProcess,List.nil_append,List.cons_append,List.mem_cons,List.not_mem_nil,or_false] at member
    rcases member with rfl | rfl
    · show ¬ Within 0x110000 4096 0x10000
      decide
    · show ¬ Within 0x210000 4096 0x10000
      decide
  have steals : Steals prologueDecoder p (nopCall 0x210000 0x10000) 0x10000 := by
    simp only [Steals,result',true_and]
    show Within 0x10000 5 0x10000
    decide
  refine ⟨prologueDecoder_reports,?_,outside,rfl,?_⟩
  · intro c member
    simp only [List.mem_cons,List.not_mem_nil,or_false] at member
    rcases member with rfl | rfl <;> rfl
  · have found := (@restored_snoc_call _ _ _ [nopCall 0x110000 0x10000] _ prologueDecoder_reports rfl outside).1
      (by rw [once]; exact steals)
    rw [once] at found
    rw [removeAll_memory]
    exact found.trans (by rw [memory]; rfl)

/-- One detour alone is undone. -/
theorem one_detour_removed :
    (removeAll (fun _ => true) (run prologueDecoder nopProcess [nopCall 0x110000 0x10000])).memory 0x10000 = 0x90 := by
  obtain ⟨_,⟨orig,patches⟩,_,_⟩ := @nopCall_result nopProcess 0x110000 [0xE9,0x0E,0,0x10,0] _ rfl nopBody ⟨rfl,rfl,rfl⟩
    (by decide)
  have outside : OutsidePages (run prologueDecoder nopProcess [nopCall 0x110000 0x10000]) 0x10000 := by
    intro patch member
    have listed : patch ∈ ((nopCall 0x110000 0x10000).result prologueDecoder nopProcess).1.patches := member
    rw [patches] at listed
    simp only [nopProcess,List.nil_append,List.mem_cons,List.not_mem_nil,or_false] at listed
    subst listed
    show ¬ Within 0x110000 4096 0x10000
    decide
  have restores := (removeAll_restores prologueDecoder prologueDecoder_reports nopProcess rfl [nopCall 0x110000 0x10000]
    (by simp [nopCall,oneFreePage])).mpr
  apply restores _ 0x10000 outside
  intro a _ before c after split _ _
  cases before with
  | nil => rfl
  | cons first rest => simp at split

end Twice

end S2Script.Detours
