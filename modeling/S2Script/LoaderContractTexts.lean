import S2Script.LoaderContracts

/-! The contracts of a batch with the texts of their drifts. A drift is put in words with the first
twelve bytes of two hashes; a character that lies across the twelfth byte stops the whole resolution. -/
namespace S2Script.Loader

open LoaderWorker

section Texts

/-- The characters that fill a number of bytes; none when the last one does not fit. -/
def cutChars : Nat → List Char → Option (List Char)
  | 0, _ => some []
  | _ + 1, [] => some []
  | room + 1, c :: rest => if c.utf8Size ≤ room + 1 then (cutChars (room + 1 - c.utf8Size) rest).map (c :: ·) else none

/-- The first twelve bytes of a hash, or all of a shorter one. -/
def cutHash (hash : String) : Option String := (cutChars 12 hash.toList).map String.ofList

def driftReason (iface built published : String) : Option String := do
  let built ← cutHash built
  let published ← cutHash published
  some (s!"contract drift on '{iface}': compiled against typesSha256 {built}… but the producer publishes {published}… — " ++
    s!"refresh .s2script/types/{iface}/index.d.ts from the producer and rebuild")

/-- Check the interfaces in order; none when the reason of a drift cannot be put in words. -/
def verifyNames (batchHashes liveHash : String → Option String) : List (String × String) → Option (Except String Unit)
  | [] => some (.ok ())
  | (iface,built) :: rest =>
    if built.isEmpty then verifyNames batchHashes liveHash rest
    else match (batchHashes iface).or (liveHash iface) with
      | none => verifyNames batchHashes liveHash rest
      | some published =>
        if !published.isEmpty && published != built then (driftReason iface built published).map .error
        else verifyNames batchHashes liveHash rest

def verifyCompiledAgainstWith (manifest : Manifest) (batchHashes liveHash : String → Option String) : Option (Except String Unit) :=
  verifyNames batchHashes liveHash (manifest.compiledAgainst.insertionSort fun a b => a.1 ≤ b.1)

/-- The first drift a check meets: the interface, the hash built against and the one published. -/
def firstDrift (batchHashes liveHash : String → Option String) : List (String × String) → Option (String × String × String)
  | [] => none
  | (iface,built) :: rest =>
    if built.isEmpty then firstDrift batchHashes liveHash rest
    else match (batchHashes iface).or (liveHash iface) with
      | none => firstDrift batchHashes liveHash rest
      | some published =>
        if !published.isEmpty && published != built then some (iface,built,published)
        else firstDrift batchHashes liveHash rest

/-- The check passes, or its first drift is between hashes that can be cut. -/
def Cuts (manifest : Manifest) (batchHashes liveHash : String → Option String) : Prop :=
  ∀ iface built published,
    firstDrift batchHashes liveHash (manifest.compiledAgainst.insertionSort fun a b => a.1 ≤ b.1) = some (iface,built,published) →
      (cutHash built).isSome ∧ (cutHash published).isSome

theorem driftReason_isSome (iface built published : String) :
    (driftReason iface built published).isSome ↔ (cutHash built).isSome ∧ (cutHash published).isSome := by
  cases left : cutHash built <;> cases right : cutHash published <;> simp [driftReason,left,right]

theorem verifyNames_eq (batchHashes liveHash : String → Option String) (names : List (String × String)) :
    verifyNames batchHashes liveHash names = match firstDrift batchHashes liveHash names with
      | none => some (.ok ())
      | some (iface,built,published) => (driftReason iface built published).map .error := by
  fun_induction verifyNames with
  | case1 => rfl
  | case2 iface built rest empty ih => simp only [firstDrift,if_pos empty,ih]
  | case3 iface built rest filled unknown ih => simp only [firstDrift,if_neg filled,unknown,ih]
  | case4 iface built rest filled published known drifts => simp only [firstDrift,if_neg filled,known,if_pos drifts]
  | case5 iface built rest filled published known fits ih => simp only [firstDrift,if_neg filled,known,if_neg fits,ih]

theorem firstDrift_eq_none (batchHashes liveHash : String → Option String) (names : List (String × String)) :
    firstDrift batchHashes liveHash names = none ↔ ∀ entry ∈ names,
      (entry.2.isEmpty || match (batchHashes entry.1).or (liveHash entry.1) with
        | none => true
        | some published => published.isEmpty || published == entry.2) = true := by
  fun_induction firstDrift with
  | case1 => simp
  | case2 iface built rest empty ih => rw [ih,List.forall_mem_cons,empty,Bool.true_or,eq_self_iff_true,true_and]
  | case3 iface built rest filled unknown ih =>
    rw [ih,List.forall_mem_cons,unknown]
    simp only [Bool.or_true,true_and]
  | case4 iface built rest filled published known drifts =>
    rw [List.forall_mem_cons,known,Bool.eq_false_of_not_eq_true filled]
    rw [Bool.and_eq_true,Bool.not_eq_true',bne_iff_ne] at drifts
    simp only [reduceCtorEq,drifts.1,Bool.false_or,beq_iff_eq,drifts.2,false_and]
  | case5 iface built rest filled published known fits ih =>
    have passes : (published.isEmpty || published == built) = true := by
      rw [bne,← Bool.not_or,Bool.not_eq_true',Bool.not_eq_false] at fits
      exact fits
    rw [ih,List.forall_mem_cons,known]
    simp only [passes,Bool.or_true,true_and]

theorem verify_isSome (manifest : Manifest) (batchHashes liveHash : String → Option String) :
    (verifyCompiledAgainstWith manifest batchHashes liveHash).isSome ↔ Cuts manifest batchHashes liveHash := by
  rw [verifyCompiledAgainstWith,verifyNames_eq,Cuts]
  split
  · next none => simp [none]
  · next iface built published found => simp [found,driftReason_isSome]

theorem firstDrift_eq_none_iff {manifest : Manifest} {batchHashes liveHash : String → Option String} :
    firstDrift batchHashes liveHash (manifest.compiledAgainst.insertionSort fun a b => a.1 ≤ b.1) = none ↔
      verifyCompiledAgainst manifest batchHashes liveHash = true := by
  rw [firstDrift_eq_none,verifyCompiledAgainst,List.all_eq_true]
  exact forall_congr' fun entry => imp_congr_left (List.perm_insertionSort _ _).mem_iff

/-- With its texts the check decides as without. -/
theorem verify_isOk {manifest : Manifest} {batchHashes liveHash : String → Option String} {verdict : Except String Unit}
    (checked : verifyCompiledAgainstWith manifest batchHashes liveHash = some verdict) :
    verdict.isOk = verifyCompiledAgainst manifest batchHashes liveHash := by
  rw [verifyCompiledAgainstWith,verifyNames_eq] at checked
  split at checked
  · next none =>
    obtain rfl := Option.some.inj checked
    exact (firstDrift_eq_none_iff.mp none).symm
  · next found =>
    obtain ⟨reason,_,rfl⟩ := Option.map_eq_some_iff.mp checked
    cases passes : verifyCompiledAgainst manifest batchHashes liveHash with
    | true => exact nomatch found.symm.trans (firstDrift_eq_none_iff.mpr passes)
    | false => rfl

end Texts

section Rounds

variable (batchHashes liveHash : String → Option String)

/-- Check candidates one after the other. -/
def verdicts : List (Path × Manifest) → Option (List (Path × Except String Unit))
  | [] => some []
  | (path,manifest) :: rest => do
    let verdict ← verifyCompiledAgainstWith manifest batchHashes liveHash
    let others ← verdicts rest
    some ((path,verdict) :: others)

/-- The paths of the candidates that pass. -/
def passing (entries : List (Path × Manifest)) : Option (List Path) :=
  (verdicts batchHashes liveHash entries).map fun checked => (checked.filter (·.2.isOk)).map Prod.fst

/-- The paths of the candidates that do not, each with its reason. -/
def rejecting (entries : List (Path × Manifest)) : Option (List (Path × String)) :=
  (verdicts batchHashes liveHash entries).map fun checked => checked.filterMap fun entry => match entry.2 with
    | .ok () => none
    | .error reason => some (entry.1,reason)

/-- The provider rounds, with the checks that stop them. -/
def settleChecked (ordered : List (Path × Manifest)) :
    Nat → List Path → List Path → List (List Path) → List Path → Option (List Path × List Path)
  | 0, _, accepted, _, cycle => some (accepted,cycle)
  | fuel + 1, eligible, accepted, history, cycle => do
    let seen := history ++ [accepted]
    let next ← passing (providedHashes ordered accepted) liveHash (ordered.filter (·.1 ∈ eligible))
    if next = accepted then some (accepted,cycle)
    else match seen.findIdx? (· == next) with
      | some start =>
        let toggling := togglers ordered eligible (seen.drop start ++ [next])
        let kept := eligible.filter (· ∉ toggling)
        settleChecked ordered fuel kept kept [] (cycle ++ toggling)
      | none => settleChecked ordered fuel eligible next seen cycle

def cycleReason : String := "compiledAgainst provider cycle has no stable candidate contract set; keeping live generations"

/-- The candidates that are rejected and why; none when a check stops. -/
def resolveContractReasons (candidates : List (Path × Manifest)) (initiallyRejected : List Path) : Option (List (Path × String)) := do
  let ordered := byPath candidates
  let eligible := providers candidates initiallyRejected
  let (accepted,cycle) ← settleChecked liveHash ordered (settleRounds ordered.length) eligible eligible [] []
  let drifting ← rejecting (providedHashes ordered accepted) liveHash
    (ordered.filter fun entry => entry.1 ∉ initiallyRejected && entry.1 ∉ cycle)
  some (cycle.map (·,cycleReason) ++ drifting)

variable {batchHashes liveHash}

theorem verdicts_eq_some {entries : List (Path × Manifest)} {checked : List (Path × Except String Unit)} :
    verdicts batchHashes liveHash entries = some checked ↔
      List.Forall₂ (fun entry verdict => verdict.1 = entry.1 ∧ verifyCompiledAgainstWith entry.2 batchHashes liveHash = some verdict.2)
        entries checked := by
  induction entries generalizing checked with
  | nil => simp [verdicts,eq_comm]
  | cons entry rest ih =>
    obtain ⟨path,manifest⟩ := entry
    simp only [verdicts,Option.bind_eq_bind,Option.bind_eq_some_iff,Option.some.injEq,List.forall₂_cons_left_iff,ih]
    constructor
    · rintro ⟨verdict,here,others,there,rfl⟩
      exact ⟨(path,verdict),others,⟨rfl,here⟩,there,rfl⟩
    · rintro ⟨⟨_,verdict⟩,others,⟨rfl,here⟩,there,rfl⟩
      exact ⟨verdict,here,others,there,rfl⟩

/-- The checks go through when each of them can put its drift in words. -/
theorem verdicts_isSome (entries : List (Path × Manifest)) :
    (verdicts batchHashes liveHash entries).isSome ↔ ∀ entry ∈ entries, Cuts entry.2 batchHashes liveHash := by
  induction entries with
  | nil => simp [verdicts]
  | cons entry rest ih =>
    obtain ⟨path,manifest⟩ := entry
    rw [List.forall_mem_cons,← ih,← verify_isSome]
    cases here : verifyCompiledAgainstWith manifest batchHashes liveHash <;>
      cases there : verdicts batchHashes liveHash rest <;> simp [verdicts,here,there]

theorem passing_eq_some {entries : List (Path × Manifest)} {paths : List Path}
    (found : passing batchHashes liveHash entries = some paths) :
    paths = (entries.filter fun entry => verifyCompiledAgainst entry.2 batchHashes liveHash).map Prod.fst := by
  obtain ⟨checked,verdicts,rfl⟩ := Option.map_eq_some_iff.mp found
  have each := verdicts_eq_some.mp verdicts
  clear found verdicts
  induction each with
  | nil => rfl
  | cons here _ ih =>
    rw [List.filter_cons,List.filter_cons,verify_isOk here.2]
    split
    · rw [List.map_cons,List.map_cons,here.1,ih]
    · exact ih

theorem mem_rejecting {entries : List (Path × Manifest)} {rejections : List (Path × String)}
    (found : rejecting batchHashes liveHash entries = some rejections) {path : Path} {reason : String} :
    (path,reason) ∈ rejections ↔
      ∃ entry ∈ entries, entry.1 = path ∧ verifyCompiledAgainstWith entry.2 batchHashes liveHash = some (.error reason) := by
  obtain ⟨checked,verdicts,rfl⟩ := Option.map_eq_some_iff.mp found
  have each := verdicts_eq_some.mp verdicts
  clear found verdicts
  induction each with
  | nil => simp
  | @cons entry verdict entries checked here _ ih =>
    obtain ⟨path',verdict⟩ := verdict
    obtain ⟨rfl,checks⟩ := here
    simp only [List.mem_cons,exists_eq_or_imp,checks,← ih]
    cases verdict <;> simp [eq_comm]

end Rounds

section Resolution

variable {ordered : List (Path × Manifest)} {liveHash : String → Option String}

/-- The checks of a round can be put in words. -/
def Clear (ordered : List (Path × Manifest)) (liveHash : String → Option String) (round : List Path × List Path) : Prop :=
  ∀ entry ∈ ordered, entry.1 ∈ round.1 → Cuts entry.2 (providedHashes ordered round.2) liveHash

theorem passing_isSome (eligible accepted : List Path) :
    (passing (providedHashes ordered accepted) liveHash (ordered.filter (·.1 ∈ eligible))).isSome ↔ Clear ordered liveHash (eligible,accepted) := by
  rw [passing,Option.isSome_map,verdicts_isSome,Clear]
  exact forall_congr' fun entry => by rw [List.mem_filter,decide_eq_true_eq,and_imp]

theorem passing_viable {eligible accepted paths : List Path}
    (found : passing (providedHashes ordered accepted) liveHash (ordered.filter (·.1 ∈ eligible)) = some paths) :
    paths = viable ordered liveHash eligible accepted := by
  rw [passing_eq_some found,List.filter_filter,viable]
  simp only [Bool.and_comm]

theorem settleChecked_succ (fuel : Nat) (eligible accepted : List Path) (history : List (List Path)) (cycle : List Path)
    (result : List Path × List Path) : settleChecked liveHash ordered (fuel + 1) eligible accepted history cycle = some result ↔
      Clear ordered liveHash (eligible,accepted) ∧
        (if viable ordered liveHash eligible accepted = accepted then some (accepted,cycle)
        else match (history ++ [accepted]).findIdx? (· == viable ordered liveHash eligible accepted) with
          | some start =>
            let toggling := togglers ordered eligible ((history ++ [accepted]).drop start ++ [viable ordered liveHash eligible accepted])
            let kept := eligible.filter (· ∉ toggling)
            settleChecked liveHash ordered fuel kept kept [] (cycle ++ toggling)
          | none => settleChecked liveHash ordered fuel eligible (viable ordered liveHash eligible accepted) (history ++ [accepted]) cycle) =
          some result := by
  rw [← passing_isSome,settleChecked]
  cases found : passing (providedHashes ordered accepted) liveHash (ordered.filter (·.1 ∈ eligible)) with
  | none => simp
  | some paths =>
    obtain rfl := passing_viable found
    simp only [Option.bind_eq_bind,Option.bind_some,Option.isSome_some,true_and]

/-- The rounds with their checks end where the rounds end, unless a check stops one of them. -/
theorem Loop.settleChecked {rounds : List (List Path × List Path)} {eligible accepted : List Path} {history : List (List Path)}
    {cycle : List Path} {result : List Path × List Path} (loop : Loop ordered liveHash rounds eligible accepted history cycle result)
    {fuel : Nat} (enough : rounds.length ≤ fuel) (other : List Path × List Path) :
    Loader.settleChecked liveHash ordered fuel eligible accepted history cycle = some other ↔
      (∀ round ∈ rounds, Clear ordered liveHash round) ∧ other = result := by
  induction loop generalizing fuel with
  | stops stable =>
    obtain ⟨fuel,rfl⟩ := Nat.exists_eq_succ_of_ne_zero (Nat.ne_of_gt enough)
    rw [settleChecked_succ,if_pos stable,List.forall_mem_singleton,Option.some.injEq,eq_comm (a := other)]
  | restarts moves found toggles _ ih =>
    rw [List.length_cons] at enough
    obtain ⟨fuel,rfl⟩ := Nat.exists_eq_succ_of_ne_zero (Nat.ne_of_gt (Nat.lt_of_lt_of_le (Nat.succ_pos _) enough))
    rw [settleChecked_succ,if_neg moves,found,List.forall_mem_cons,and_assoc]
    simp only [toggles]
    rw [ih (Nat.le_of_succ_le_succ enough)]
  | continues moves fresh _ ih =>
    rw [List.length_cons] at enough
    obtain ⟨fuel,rfl⟩ := Nat.exists_eq_succ_of_ne_zero (Nat.ne_of_gt (Nat.lt_of_lt_of_le (Nat.succ_pos _) enough))
    rw [settleChecked_succ,if_neg moves,fresh,List.forall_mem_cons,and_assoc]
    simp only
    rw [ih (Nat.le_of_succ_le_succ enough)]

variable (candidates : List (Path × Manifest)) (initiallyRejected : List Path) (liveHash)

/-- The rounds of the resolution. -/
abbrev ProviderRounds (rounds : List (List Path × List Path)) (accepted cycle : List Path) : Prop :=
  Loop (byPath candidates) liveHash rounds (providers candidates initiallyRejected) (providers candidates initiallyRejected) [] []
    (accepted,cycle)

/-- No check of a round, and none of the last pass, meets a first drift that it cannot put in words. -/
structure Speakable : Prop where
  rounds : ∀ rounds accepted cycle, ProviderRounds liveHash candidates initiallyRejected rounds accepted cycle →
    ∀ round ∈ rounds, Clear (byPath candidates) liveHash round
  last : ∀ rounds accepted cycle, ProviderRounds liveHash candidates initiallyRejected rounds accepted cycle →
    ∀ entry ∈ candidates, entry.1 ∉ initiallyRejected → entry.1 ∉ cycle → Cuts entry.2 (providedHashes (byPath candidates) accepted) liveHash

/-- Who is not rejected fits what those publish over the live hashes; who is rejected does not, or toggles
in a cycle that the rounds met. -/
def Consistent (cycle : List Path) (rejections : List (Path × String)) : Prop :=
  ∃ batchHashes : String → Option String,
    (∀ iface hash, batchHashes iface = some hash ↔
      Publishes candidates (fun path => path ∉ initiallyRejected ∧ path ∉ rejections.map Prod.fst) iface hash) ∧
    (∀ entry ∈ candidates, entry.1 ∉ initiallyRejected → entry.1 ∉ rejections.map Prod.fst →
      verifyCompiledAgainstWith entry.2 batchHashes liveHash = some (.ok ())) ∧
    ∀ path reason, (path,reason) ∈ rejections → ∃ entry ∈ candidates, entry.1 = path ∧ path ∉ initiallyRejected ∧
      (verifyCompiledAgainstWith entry.2 batchHashes liveHash = some (.error reason) ∨
        path ∈ cycle ∧ Toggles (byPath candidates) liveHash path ∧ reason = cycleReason)

variable {liveHash candidates}

theorem resolveContractReasons_eq_some {rounds : List (List Path × List Path)} {accepted cycle : List Path}
    (loop : ProviderRounds liveHash candidates initiallyRejected rounds accepted cycle)
    (few : rounds.length ≤ settleRounds (byPath candidates).length) (rejections : List (Path × String)) :
    resolveContractReasons liveHash candidates initiallyRejected = some rejections ↔
      (∀ round ∈ rounds, Clear (byPath candidates) liveHash round) ∧
        ∃ drifting, rejecting (providedHashes (byPath candidates) accepted) liveHash
          ((byPath candidates).filter fun entry => entry.1 ∉ initiallyRejected && entry.1 ∉ cycle) = some drifting ∧
            cycle.map (·,cycleReason) ++ drifting = rejections := by
  simp only [resolveContractReasons,Option.bind_eq_bind,Option.bind_eq_some_iff,Option.some.injEq,loop.settleChecked few]
  constructor
  · rintro ⟨_,⟨clear,rfl⟩,rest⟩
    exact ⟨clear,rest⟩
  · rintro ⟨clear,rest⟩
    exact ⟨_,⟨clear,rfl⟩,rest⟩

theorem rejecting_isSome (accepted cycle : List Path) :
    (rejecting (providedHashes (byPath candidates) accepted) liveHash
      ((byPath candidates).filter fun entry => entry.1 ∉ initiallyRejected && entry.1 ∉ cycle)).isSome ↔
      ∀ entry ∈ candidates, entry.1 ∉ initiallyRejected → entry.1 ∉ cycle →
        Cuts entry.2 (providedHashes (byPath candidates) accepted) liveHash := by
  rw [rejecting,Option.isSome_map,verdicts_isSome]
  refine forall_congr' fun entry => ?_
  rw [List.mem_filter,(byPath_perm candidates).mem_iff,Bool.and_eq_true,decide_eq_true_eq,decide_eq_true_eq,and_imp,and_imp]

theorem passes_iff {batchHashes : String → Option String} {manifest : Manifest} :
    verifyCompiledAgainstWith manifest batchHashes liveHash = some (.ok ()) ↔ verifyCompiledAgainst manifest batchHashes liveHash = true := by
  rw [← firstDrift_eq_none_iff,verifyCompiledAgainstWith,verifyNames_eq]
  split
  · next none => simp [none]
  · next found => simp [found]

theorem rejects_iff {batchHashes : String → Option String} {manifest : Manifest} (cuts : Cuts manifest batchHashes liveHash) :
    verifyCompiledAgainst manifest batchHashes liveHash = false ↔
      ∃ reason, verifyCompiledAgainstWith manifest batchHashes liveHash = some (.error reason) := by
  obtain ⟨verdict,checked⟩ := Option.isSome_iff_exists.mp (verify_isSome manifest batchHashes liveHash |>.mpr cuts)
  rw [← verify_isOk checked,checked]
  cases verdict <;> simp [Except.isOk,Except.toBool]

/-- With their reasons the same candidates are rejected. -/
theorem reasons_paths (accepted cycle : List Path) {drifting : List (Path × String)}
    (rejects : rejecting (providedHashes (byPath candidates) accepted) liveHash
      ((byPath candidates).filter fun entry => entry.1 ∉ initiallyRejected && entry.1 ∉ cycle) = some drifting) (path : Path) :
    path ∈ (cycle.map (·,cycleReason) ++ drifting).map Prod.fst ↔
      path ∈ cycle ++ Loader.drifting candidates initiallyRejected liveHash accepted cycle := by
  have cuts := (rejecting_isSome initiallyRejected accepted cycle).mp (Option.isSome_of_eq_some rejects)
  rw [List.map_append,List.map_map,List.mem_append,List.mem_append]
  refine or_congr (by simp) ?_
  rw [List.mem_map,Loader.drifting,List.mem_map]
  constructor
  · rintro ⟨⟨_,reason⟩,member,rfl⟩
    obtain ⟨entry,listed,rfl,fails⟩ := (mem_rejecting rejects).mp member
    obtain ⟨ordered,free⟩ := List.mem_filter.mp listed
    rw [Bool.and_eq_true,decide_eq_true_eq,decide_eq_true_eq] at free
    have drifts := (rejects_iff (cuts entry ((byPath_perm candidates).mem_iff.mp ordered) free.1 free.2)).mpr ⟨reason,fails⟩
    exact ⟨entry,List.mem_filter.mpr ⟨ordered,by simp [free,drifts]⟩,rfl⟩
  · rintro ⟨entry,member,rfl⟩
    obtain ⟨ordered,passes⟩ := List.mem_filter.mp member
    simp only [Bool.and_eq_true,decide_eq_true_eq,Bool.not_eq_true'] at passes
    obtain ⟨⟨free,apart⟩,fails⟩ := passes
    obtain ⟨reason,fails⟩ := (rejects_iff (cuts entry ((byPath_perm candidates).mem_iff.mp ordered) free apart)).mp fails
    exact ⟨(entry.1,reason),(mem_rejecting rejects).mpr ⟨entry,List.mem_filter.mpr ⟨ordered,by simp [free,apart]⟩,rfl,fails⟩,rfl⟩

/-- The resolution comes to a consistent set, whatever the order of the candidates, exactly when each
drift its checks meet first can be put in words. -/
theorem contracts_settle (candidates : List (Path × Manifest)) (distinct : (candidates.map Prod.fst).Nodup)
    (initiallyRejected : List Path) (liveHash : String → Option String) :
    (∃ rounds accepted cycle rejections, ProviderRounds liveHash candidates initiallyRejected rounds accepted cycle ∧
      resolveContractReasons liveHash candidates initiallyRejected = some rejections ∧
      (∀ other : List (Path × Manifest), other.Perm candidates →
        resolveContractReasons liveHash other initiallyRejected = some rejections) ∧
      Consistent liveHash candidates initiallyRejected cycle rejections) ↔ Speakable liveHash candidates initiallyRejected := by
  obtain ⟨⟨rounds,few,loop⟩,ends⟩ := settled_spec initiallyRejected liveHash distinct
  have hashes := accepted_hashes initiallyRejected liveHash distinct
  have fits := fun entry listed => @accepted_fits candidates initiallyRejected liveHash distinct entry listed
  have rejected := resolveContractRejections_eq candidates initiallyRejected liveHash
  generalize settled candidates initiallyRejected liveHash = result at loop ends hashes fits rejected
  obtain ⟨accepted,cycle⟩ := result
  have resolves := resolveContractReasons_eq_some initiallyRejected loop few
  constructor
  · rintro ⟨_,_,_,rejections,_,resolved,_,_⟩
    obtain ⟨clear,drifting,rejects,_⟩ := (resolves rejections).mp resolved
    have last := (rejecting_isSome initiallyRejected accepted cycle).mp (Option.isSome_of_eq_some rejects)
    refine ⟨fun others _ _ also => ?_,fun others _ _ also => ?_⟩ <;> obtain ⟨rfl,same⟩ := loop.unique also
    · exact clear
    · cases same
      exact last
  · intro speakable
    have cuts := speakable.last rounds accepted cycle loop
    obtain ⟨drifting,rejects⟩ := Option.isSome_iff_exists.mp ((rejecting_isSome initiallyRejected accepted cycle).mpr cuts)
    have resolved := (resolves _).mpr ⟨speakable.rounds rounds accepted cycle loop,drifting,rejects,rfl⟩
    have paths := reasons_paths initiallyRejected accepted cycle rejects
    rw [← rejected] at paths
    refine ⟨rounds,accepted,cycle,_,loop,resolved,fun other perm => ?_,providedHashes (byPath candidates) accepted,
      fun iface hash => ?_,fun entry listed free apart => ?_,fun path reason member => ?_⟩
    · rw [← resolved]
      have same := byPath_unique distinct perm
      simp only [resolveContractReasons,providers,same]
    · have members : Accepted candidates initiallyRejected liveHash = fun path =>
          path ∉ initiallyRejected ∧ path ∉ (cycle.map (·,cycleReason) ++ drifting).map Prod.fst :=
        funext fun path => by rw [Accepted,paths]
      rw [hashes,members]
    · rw [paths] at apart
      exact passes_iff.mpr (fits entry listed ⟨free,apart⟩)
    · rcases List.mem_append.mp member with toggles | drifts
      · obtain ⟨_,inCycle,same⟩ := List.mem_map.mp toggles
        obtain ⟨rfl,rfl⟩ := Prod.mk.inj same
        obtain ⟨provides,cycles⟩ := ends.toggles _ inCycle
        obtain ⟨entry,listed,rfl⟩ := List.mem_map.mp provides
        obtain ⟨ordered,free⟩ := List.mem_filter.mp listed
        rw [Bool.and_eq_true,decide_eq_true_eq] at free
        exact ⟨entry,(byPath_perm candidates).mem_iff.mp ordered,rfl,free.1,.inr ⟨inCycle,cycles,rfl⟩⟩
      · obtain ⟨entry,listed,rfl,fails⟩ := (mem_rejecting rejects).mp drifts
        obtain ⟨ordered,free⟩ := List.mem_filter.mp listed
        rw [Bool.and_eq_true,decide_eq_true_eq] at free
        exact ⟨entry,(byPath_perm candidates).mem_iff.mp ordered,rfl,free.1,.inl fails⟩

/-- A plugin that publishes an interface under a hash, and one that was built against another. -/
def publisher (hash : String) : Path × Manifest := ([97],⟨"@demo/publisher","1",[],[],[("@demo/api",hash)],[],[]⟩)

def consumer (hash : String) : Path × Manifest := ([98],⟨"@demo/consumer","1",["@demo/api"],[],[],[("@demo/api",hash)],[]⟩)

theorem contracts_settle_drifted : ([publisher "b",consumer "a"].map Prod.fst).Nodup ∧
    ((∃ rounds accepted cycle rejections, ProviderRounds (fun _ => none) [publisher "b",consumer "a"] [] rounds accepted cycle ∧
      resolveContractReasons (fun _ => none) [publisher "b",consumer "a"] [] = some rejections ∧
      (∀ other : List (Path × Manifest), other.Perm [publisher "b",consumer "a"] →
        resolveContractReasons (fun _ => none) other [] = some rejections) ∧
      Consistent (fun _ => none) [publisher "b",consumer "a"] [] cycle rejections) ↔
        Speakable (fun _ => none) [publisher "b",consumer "a"] []) :=
  ⟨by decide,contracts_settle [publisher "b",consumer "a"] (by decide) [] fun _ => none⟩

/-- The twelfth byte of the consumer's hash is the first of the two of a letter. -/
theorem contracts_stop : ([publisher "b",consumer "aéééééé"].map Prod.fst).Nodup ∧
    resolveContractReasons (fun _ => none) [publisher "b",consumer "aéééééé"] [] = none := by decide

end Resolution

end S2Script.Loader
