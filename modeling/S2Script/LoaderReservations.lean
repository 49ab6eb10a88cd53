import S2Script.LoaderReading
import S2Script.LoaderWorkerQueue

/-! What a request reserves and what its answer weighs. The reads keep the limits of the policy, and
the answers keep the reservations, except for a scan that fails under a small envelope. -/
namespace S2Script.LoaderWorker

/-! ### Bounded reads -/

/-- One step of a read peels off. -/
theorem read_ok {α β : Type} {first : Except String α} {next : α → Except String β} {answer : β}
    (passed : (first >>= next) = .ok answer) : ∃ middle, first = .ok middle ∧ next middle = .ok answer := by
  cases first with
  | error reason => exact nomatch passed
  | ok middle => exact ⟨middle,rfl,passed⟩

theorem readOpenFile_bounded {file : OpenFile} {shown : String} {limit : Nat} {answer : List UInt8 × FileStamp}
    (found : readOpenFile file shown limit = .ok answer) : answer.1.length ≤ limit := by
  obtain ⟨before,_,found⟩ := read_ok found
  split at found
  · contradiction
  · split at found
    · contradiction
    · obtain ⟨bytes,_,found⟩ := read_ok found
      split at found
      · contradiction
      · next fits =>
        obtain ⟨after,_,found⟩ := read_ok found
        split at found
        · contradiction
        · cases found
          exact Nat.le_of_not_lt fits

theorem stableRead_bounded {files : Files} {path : Path} {limit : Nat} {answer : List UInt8 × FileStamp}
    (found : stableRead files path limit = .ok answer) : answer.1.length ≤ limit := by
  rw [stableRead.eq_def] at found
  split at found
  · contradiction
  · contradiction
  · obtain ⟨first,_,found⟩ := read_ok found
    split at found
    · contradiction
    · obtain ⟨second,read,found⟩ := read_ok found
      split at found
      · contradiction
      · cases found
        exact readOpenFile_bounded read

theorem readZipMember_bounded {brokenAt : List UInt8 → String} {archive : ZipArchive} {name : String} {limit : Nat} {required : Bool}
    {member : Option String} (found : readZipMember brokenAt archive name limit required = .ok member) : sizeOf member ≤ limit := by
  rw [readZipMember.eq_def] at found
  split at found
  · split at found
    · contradiction
    · cases found
      exact Nat.zero_le _
  · split at found
    · contradiction
    · obtain ⟨bytes,_,found⟩ := read_ok found
      split at found
      · contradiction
      · next fits =>
        split at found
        · next text decoded =>
          cases found
          rw [String.fromUTF8?] at decoded
          split at decoded
          · cases decoded
            have size : (String.fromUTF8 ⟨bytes.toArray⟩ (by assumption)).utf8ByteSize = bytes.length := by
              simp [String.fromUTF8,← String.size_toByteArray,ByteArray.size]
            simp only [sizeOf,Option.map_some,Option.getD_some,size]
            omega
          · contradiction
        · contradiction

theorem getD_size (member : Option String) : (member.getD "").utf8ByteSize = sizeOf member := by
  cases member <;> rfl

/-- A parsed archive has the members its limits let through. -/
structure ParsedArchive.Within (limits : ParseLimits) (parsed : ParsedArchive) : Prop where
  manifest : parsed.manifestBytes ≤ limits.manifestBytes
  js : parsed.js.utf8ByteSize ≤ limits.pluginJsBytes
  gamedata : sizeOf parsed.gamedata ≤ limits.gamedataBytes
  engine : sizeOf parsed.engineFunctions ≤ limits.engineFunctionsBytes

theorem parseS2spParts_within {archives : Archives} {limits : ParseLimits} {bytes : List UInt8} {parsed : ParsedArchive}
    (found : parseS2spParts archives limits bytes = .ok parsed) : parsed.Within limits := by
  obtain ⟨archive,_,found⟩ := read_ok found
  split at found
  · contradiction
  · obtain ⟨_,_,found⟩ := read_ok found
    obtain ⟨manifestJson,readsManifest,found⟩ := read_ok found
    obtain ⟨document,_,found⟩ := read_ok found
    obtain ⟨_,_,found⟩ := read_ok found
    split at found
    · contradiction
    · obtain ⟨js,readsJs,found⟩ := read_ok found
      obtain ⟨engine,readsEngine,found⟩ := read_ok found
      obtain ⟨_,_,found⟩ := read_ok found
      cases found
      refine ⟨?_,?_,?_,readZipMember_bounded readsEngine⟩
      · rw [getD_size]
        exact readZipMember_bounded readsManifest
      · rw [getD_size]
        exact readZipMember_bounded readsJs
      · simp only
        split
        · next readsGamedata => exact readZipMember_bounded readsGamedata
        · exact Nat.zero_le _

theorem saturatingAdd_le (a b : Nat) : saturatingAdd a b ≤ a + b := Nat.min_le_left _ _

theorem ParsedArchive.Within.resident {limits : ParseLimits} {parsed : ParsedArchive} (within : parsed.Within limits) :
    parsed.residentBytes ≤ limits.manifestBytes + limits.pluginJsBytes + limits.gamedataBytes + limits.engineFunctionsBytes + 64 := by
  obtain ⟨manifest,js,gamedata,engine⟩ := within
  rw [residentBytes]
  simp only [saturatingAdd]
  omega

theorem prepare_bounded {policy : LoaderPolicy} {files : Files} {archives : Archives} {path : Path} {prepared : PreparedPlugin}
    (found : prepare policy files archives path = .ok prepared) :
    prepared.residentBytes ≤ policy.parse.manifestBytes + policy.parse.pluginJsBytes + policy.parse.gamedataBytes +
      policy.parse.engineFunctionsBytes + 64 := by
  obtain ⟨read,_,found⟩ := read_ok found
  obtain ⟨parsed,parses,found⟩ := read_ok found
  cases found
  exact (parseS2spParts_within parses).resident

/-! ### Bounded scans -/

/-- What a scan has found so far. -/
structure Scanned (policy : LoaderPolicy) (out : List (Path × FileStamp)) (total : Nat) : Prop where
  bytes : (out.map fun entry => entry.1.length).sum ≤ total
  paths : total ≤ policy.pathBytes
  candidates : out.length ≤ policy.scanCandidates

theorem Scanned.pass {policy : LoaderPolicy} (sized : policy.pathBytes < usizeMax) {out : List (Path × FileStamp)} {total : Nat}
    (scanned : Scanned policy out total) (path : Path) (fits : ¬policy.pathBytes < saturatingAdd total path.length) :
    Scanned policy out (saturatingAdd total path.length) ∧
      (out.map fun entry => entry.1.length).sum + path.length ≤ saturatingAdd total path.length := by
  obtain ⟨bytes,paths,candidates⟩ := scanned
  have exact := saturatingAdd_of_le sized fits
  have same : saturatingAdd total path.length = total + path.length := by
    rw [saturatingAdd]
    omega
  rw [same]
  exact ⟨⟨by omega,exact,candidates⟩,by omega⟩

theorem scanEntries_scanned {policy : LoaderPolicy} (sized : policy.pathBytes < usizeMax) {files : Files} {dir : Path}
    {entries : List (Except String DirEntry)} {out found : List (Path × FileStamp)} {total examined : Nat}
    (scanned : Scanned policy out total) (ends : scanEntries policy files dir entries out total examined = .ok found) :
    ∃ total, Scanned policy found total := by
  induction entries generalizing out total examined with
  | nil =>
    cases ends
    exact ⟨total,scanned⟩
  | cons entry rest ih =>
    rw [scanEntries.eq_def] at ends
    simp only at ends
    split at ends
    · contradiction
    · split at ends
      · contradiction
      · next entry =>
        split at ends
        · contradiction
        · next fits =>
          obtain ⟨passed,room⟩ := scanned.pass sized entry.path fits
          split at ends
          · exact ih passed ends
          · split at ends
            · contradiction
            · split at ends
              · exact ih passed ends
              · split at ends
                · contradiction
                · next fewer =>
                  refine ih ⟨?_,passed.paths,?_⟩ ends
                  · simp only [List.map_append,List.map_cons,List.map_nil,List.sum_append,List.sum_cons,List.sum_nil]
                    omega
                  · rw [List.length_append,List.length_singleton]
                    omega

/-- The weight of what a scan finds is its path bytes and a row for each candidate. -/
theorem weight_entries (entries : List (Path × FileStamp)) :
    (entries.map fun entry => entry.1.length + 96).sum = (entries.map fun entry => entry.1.length).sum + 96 * entries.length := by
  induction entries with
  | nil => rfl
  | cons entry rest ih =>
    simp only [List.map_cons,List.sum_cons,List.length_cons,ih]
    omega

theorem scanPlugins_bounded {policy : LoaderPolicy} (sized : policy.pathBytes < usizeMax) {files : Files} {dir : Path}
    {found : List (Path × FileStamp)} (ends : scanPlugins policy files dir = .ok found) :
    (found.map fun entry => entry.1.length + 96).sum ≤ policy.pathBytes + 96 * policy.scanCandidates := by
  rw [scanPlugins.eq_def] at ends
  split at ends
  · cases ends
    exact Nat.zero_le _
  · contradiction
  · obtain ⟨out,scans,ends⟩ := read_ok ends
    cases ends
    obtain ⟨total,bytes,paths,candidates⟩ := scanEntries_scanned sized ⟨Nat.le_refl _,Nat.zero_le _,Nat.zero_le _⟩ scans
    rw [((List.perm_insertionSort _ out).map _).sum_nat,weight_entries]
    omega

/-! ### Reservations -/

/-- The sums of a validated policy stay far from saturating. -/
theorem LoaderPolicy.summands {policy : LoaderPolicy} (valid : policy.validate = .ok ()) :
    policy.pathBytes ≤ safeSize ∧ policy.scanCandidates ≤ safeSize ∧ policy.configBytes ≤ safeSize ∧
      policy.parse.manifestBytes ≤ safeSize ∧ policy.parse.pluginJsBytes ≤ safeSize ∧ policy.parse.gamedataBytes ≤ safeSize ∧
      policy.parse.engineFunctionsBytes ≤ safeSize := by
  have bounded := LoaderPolicy.bounded valid
  refine ⟨?_,?_,?_,?_,?_,?_,?_⟩ <;> exact (bounded _ (by simp [sizedFields])).2

def Request.path : Request → Path
  | .scan _ _ dir => dir
  | .plugin _ _ path | .config _ _ path _ => path

/-- A reservation without saturation. -/
def Request.reserves (policy : LoaderPolicy) : Request → Nat
  | .scan _ _ _ => policy.pathBytes + 96 * policy.scanCandidates
  | .plugin _ _ path => path.length + policy.parse.manifestBytes + policy.parse.pluginJsBytes + policy.parse.gamedataBytes +
      policy.parse.engineFunctionsBytes + 2048
  | .config _ _ path _ => path.length + 3 * policy.configBytes + 256

/-- A validated scan envelope fits the result bytes, so it did not saturate. -/
theorem scanResultReservation_le {policy : LoaderPolicy} (valid : policy.validate = .ok ()) :
    policy.scanResultReservation ≤ policy.resultBytes := by
  rw [LoaderPolicy.validate] at valid
  by_contra exceeds
  rw [if_pos (Nat.lt_of_not_le exceeds)] at valid
  repeat' split at valid
  all_goals contradiction

theorem resultReservation_eq {policy : LoaderPolicy} (valid : policy.validate = .ok ()) (request : Request)
    (short : request.path.length ≤ 4096) : request.resultReservation policy = request.reserves policy := by
  have summands := LoaderPolicy.summands valid
  have sixteen : 16 * LoaderPolicy.safeSize ≤ usizeMax := by decide
  have enough : 4096 ≤ LoaderPolicy.safeSize := by decide
  cases request with
  | scan =>
    have fits := scanResultReservation_le valid
    have below := (LoaderPolicy.sized valid).result
    simp only [Request.resultReservation,Request.reserves,LoaderPolicy.scanResultReservation,saturatingAdd,saturatingMul] at fits ⊢
    omega
  | plugin =>
    simp only [Request.resultReservation,Request.reserves,saturatingAdd,Request.path] at short ⊢
    generalize LoaderPolicy.safeSize = safe at summands sixteen enough
    generalize usizeMax = most at sixteen ⊢
    omega
  | config =>
    simp only [Request.resultReservation,Request.reserves,saturatingAdd,saturatingMul,Request.path] at short ⊢
    generalize LoaderPolicy.safeSize = safe at summands sixteen enough
    generalize usizeMax = most at sixteen ⊢
    omega

/-- The control row a watched config needs fits the request bytes. -/
def Request.WatchFits (policy : LoaderPolicy) (request : Request) : Prop :=
  ∀ path generation, request.watch = some (path,generation) → 2 * path.length + 64 ≤ policy.requestBytes

theorem configWatchWeight_eq (path : Path) (short : path.length ≤ 4096) : configWatchWeight path = 2 * path.length + 64 := by
  have most : 16384 ≤ usizeMax := by decide
  rw [configWatchWeight,saturatingAdd,saturatingMul]
  omega

/-- The watch of a request is on its own path. -/
theorem watch_path {request : Request} {path : Path} {generation : Nat} (watched : request.watch = some (path,generation)) :
    path = request.path := by
  cases request with
  | scan => exact nomatch watched
  | plugin => exact nomatch watched
  | config epoch revision own watchGeneration =>
    cases watchGeneration with
    | none => exact nomatch watched
    | some requested =>
      cases watched
      rfl

theorem oversizedBy_eq_empty (policy : LoaderPolicy) (request : Request) : oversizedBy policy request = {} ↔
    request.requestWeight ≤ policy.requestBytes ∧ request.resultReservation policy ≤ policy.resultBytes := by
  rw [oversizedBy]
  by_cases light : policy.requestBytes < request.requestWeight <;>
    by_cases fits : policy.resultBytes < request.resultReservation policy <;> simp [light,fits]
  omega

theorem queuePressure_empty {policy : LoaderPolicy} (valid : policy.validate = .ok ()) {request : Request}
    (light : request.requestWeight ≤ policy.requestBytes) (fits : request.resultReservation policy ≤ policy.resultBytes) :
    queuePressure policy {} request = {} := by
  have bounded := LoaderPolicy.bounded valid
  have requestItems := (bounded policy.requestItems (by simp [LoaderPolicy.sizedFields])).1
  have resultItems := (bounded policy.resultItems (by simp [LoaderPolicy.sizedFields])).1
  have requestBytes : saturatingAdd ({} : State).requestBytes request.requestWeight ≤ 0 + _ := saturatingAdd_le 0 _
  have resultBytes : saturatingAdd ({} : State).reservedResultBytes (request.resultReservation policy) ≤ 0 + _ := saturatingAdd_le 0 _
  have none : ({} : State).obligations.size = 0 := rfl
  rw [queuePressure,none,if_neg (by omega),if_neg (by omega),if_neg (by omega),if_neg (by omega)]

theorem watchPressure_empty {policy : LoaderPolicy} (valid : policy.validate = .ok ()) {weight : Nat}
    (fits : weight ≤ policy.requestBytes) : watchPressure policy {} weight = {} := by
  have requestItems := (LoaderPolicy.bounded valid policy.requestItems (by simp [LoaderPolicy.sizedFields])).1
  have bytes : saturatingAdd ({} : State).configWatchBytes weight ≤ 0 + _ := saturatingAdd_le 0 _
  have none : ({} : State).configWatches.size = 0 := rfl
  rw [watchPressure,none,if_neg (by omega),if_neg (by omega)]

theorem empty_unowed (request : Request) : request.key ∉ ({} : State).obligations := by
  intro owed
  exact nomatch owed

/-- What an empty worker accepts. -/
theorem trySubmit_empty {policy : LoaderPolicy} (valid : policy.validate = .ok ()) (request : Request)
    (short : request.path.length ≤ 4096) (light : request.requestWeight ≤ policy.requestBytes) :
    (trySubmit policy {} request).1 = .accepted ↔ request.reserves policy ≤ policy.resultBytes ∧ request.WatchFits policy := by
  have reserved := resultReservation_eq valid request short
  rw [trySubmit]
  by_cases fits : request.reserves policy ≤ policy.resultBytes
  · rw [← reserved] at fits
    have alone := (oversizedBy_eq_empty policy request).mpr ⟨light,fits⟩
    rw [← reserved]
    simp only [alone,ne_eq,not_true_eq_false,if_false,queuePressure_empty valid light fits,if_neg (empty_unowed request),fits,true_and]
    cases watched : request.watch with
    | none =>
      have idle : ({} : State).newWatch request = false := by simp [State.newWatch,watched]
      simp [idle,Request.WatchFits,watched]
    | some watch =>
      obtain ⟨path,generation⟩ := watch
      have fresh : ({} : State).newWatch request = true := by simp [State.newWatch,watched]
      have weight := configWatchWeight_eq path (watch_path watched ▸ short)
      simp only [fresh,Option.map_some,Option.getD_some,weight,true_and]
      by_cases room : 2 * path.length + 64 ≤ policy.requestBytes
      · simp [Nat.not_lt.mpr room,watchPressure_empty valid room,Request.WatchFits,watched,room]
      · simp [Nat.lt_of_not_le room,Request.WatchFits,watched,room]
  · have alone : oversizedBy policy request ≠ {} := fun none => by
      have fits' := ((oversizedBy_eq_empty policy request).mp none).2
      omega
    simp [alone,fits]

theorem snapshot_content (policy : LoaderPolicy) (baselines : ConfigBaselines) (path : Path) (revision : Nat)
    (watchGeneration : Option Nat) (content : Option String) (stamp : Option FileStamp) :
    (snapshot policy baselines path revision watchGeneration content stamp).1.content = content := by
  cases watchGeneration <;> rfl

/-- A config text has at most three times the bytes that were read. -/
theorem readConfig_bounded {policy : LoaderPolicy} {files : Files} {archives : Archives} {baselines : ConfigBaselines} {path : Path}
    {revision : Nat} {watchGeneration : Option Nat} {found : ConfigSnapshot}
    (read : (readConfig policy (files.disk archives policy) baselines path revision watchGeneration).1 = .ok found) {text : String}
    (filled : found.content = some text) : text.utf8ByteSize ≤ 3 * policy.configBytes := by
  rw [readConfig] at read
  cases stable : stableRead files path policy.configBytes with
  | error reason =>
    have answer : (files.disk archives policy).stableRead path = .error reason := by simp only [Files.disk,stable]; rfl
    simp only [answer] at read
    split at read
    · cases read
      rw [snapshot_content] at filled
      exact nomatch filled
    · contradiction
  | ok answer =>
    have decoded : (files.disk archives policy).stableRead path = .ok (String.ofList (Utf8.lossy answer.1),answer.2) := by
      simp only [Files.disk,stable]; rfl
    simp only [decoded] at read
    cases read
    rw [snapshot_content] at filled
    obtain rfl := Option.some.inj filled
    have bounded := stableRead_bounded stable
    have grows := Utf8.ofList_lossy_size answer.1
    omega

/-- Whatever a plugin or a config request is answered fits its reservation, and so does what a scan finds. -/
theorem runRequest_weight {policy : LoaderPolicy} (valid : policy.validate = .ok ()) (files : Files) (archives : Archives)
    (baselines : ConfigBaselines) (request : Request) (envelope : ∀ epoch revision dir, request = .scan epoch revision dir →
      256 ≤ request.reserves policy) :
    (runRequest policy (files.disk archives policy) baselines request).1.weight ≤ request.reserves policy := by
  have summands := LoaderPolicy.summands valid
  cases request with
  | scan epoch revision dir =>
    simp only [runRequest,Files.disk]
    cases found : scanPlugins policy files dir with
    | error reason => exact envelope epoch revision dir rfl
    | ok entries => exact scanPlugins_bounded (Nat.lt_of_le_of_lt summands.1 safeSize_lt) found
  | plugin epoch revision path =>
    simp only [runRequest,Files.disk]
    cases found : prepare policy files archives path with
    | error reason =>
      simp only [WorkerResult.weight,Request.reserves]
      omega
    | ok prepared =>
      have bounded := prepare_bounded found
      simp only [WorkerResult.weight,Request.reserves]
      omega
  | config epoch revision path watchGeneration =>
    simp only [runRequest,WorkerResult.weight,Request.reserves]
    split
    · next text stamp watch read =>
      have bounded := readConfig_bounded read rfl
      omega
    · omega

/-- What a policy has to leave room for, over what its validation asks. -/
def Finishes (policy : LoaderPolicy) (request : Request) : Prop :=
  request.reserves policy ≤ policy.resultBytes ∧ request.WatchFits policy ∧
    ∀ epoch revision dir, request = .scan epoch revision dir → 256 ≤ request.reserves policy

/-- A disk that answers no directory. -/
def deniedFiles : Files where
  readDir _ := .error (.other "permission denied")
  openFirst _ := .error (.other "permission denied")
  openSecond _ := .error (.other "permission denied")
  shown _ := "path"

def noArchives : Archives where
  openZip _ := .error "no archive"
  parseManifest _ := .error "no manifest"
  validateManifest _ := .ok ()
  isReservedOwner _ := false
  reservedOwnerPrefix := "@s2script/"
  shown id := id
  brokenAt _ := "byte 0"
  parseContract _ _ := .ok ()

/-- An empty worker of a validated policy accepts a request and its answer keeps the reservation exactly
when the policy also left room for the path, the row and the error. -/
theorem validated_policy_finishes_iff (policy : LoaderPolicy) (valid : policy.validate = .ok ()) (request : Request)
    (short : request.path.length ≤ 4096) (light : request.requestWeight ≤ policy.requestBytes) :
    ((trySubmit policy {} request).1 = .accepted ∧ request.resultReservation policy ≤ policy.resultBytes ∧
      ∀ files archives baselines, (runRequest policy (Files.disk files archives policy) baselines request).1.weight ≤
        request.resultReservation policy) ↔ Finishes policy request := by
  rw [resultReservation_eq valid request short,trySubmit_empty valid request short light,Finishes]
  constructor
  · rintro ⟨⟨fits,watches⟩,_,weighs⟩
    refine ⟨fits,watches,fun epoch revision dir scans => ?_⟩
    subst scans
    exact weighs deniedFiles noArchives {}
  · rintro ⟨fits,watches,envelope⟩
    exact ⟨⟨fits,watches⟩,fits,fun files archives baselines => runRequest_weight valid files archives baselines request envelope⟩

theorem validated_policy_finishes_default : ({} : LoaderPolicy).validate = .ok () ∧
    (Request.plugin 1 1 [97]).path.length ≤ 4096 ∧ (Request.plugin 1 1 [97]).requestWeight ≤ ({} : LoaderPolicy).requestBytes ∧
    (((trySubmit {} {} (.plugin 1 1 [97])).1 = .accepted ∧
      (Request.plugin 1 1 [97]).resultReservation {} ≤ ({} : LoaderPolicy).resultBytes ∧
      ∀ files archives baselines, (runRequest {} (Files.disk files archives {}) baselines (.plugin 1 1 [97])).1.weight ≤
        (Request.plugin 1 1 [97]).resultReservation {}) ↔ Finishes {} (.plugin 1 1 [97])) :=
  ⟨rfl,by decide,by decide,validated_policy_finishes_iff {} rfl (.plugin 1 1 [97]) (by decide) (by decide)⟩

/-- The parsed members fit the result bytes with the 64 bytes that validation adds, and not with the 2048
that a reservation adds. -/
def tightPolicy : LoaderPolicy := { resultBytes := 30408768,archiveBytes := 1048576 }

theorem tight_policy_prepares_nothing : tightPolicy.validate = .ok () ∧ (Request.plugin 1 1 [97]).path.length ≤ 4096 ∧
    (Request.plugin 1 1 [97]).requestWeight ≤ tightPolicy.requestBytes ∧
    (trySubmit tightPolicy {} (.plugin 1 1 [97])).1 = .oversized := by
  refine ⟨by decide,by decide,by decide,?_⟩
  rw [trySubmit,if_pos (fun none => absurd ((oversizedBy_eq_empty _ _).mp none).2 (by decide))]

end S2Script.LoaderWorker
