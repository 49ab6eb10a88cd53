import S2Script.Json

/-! Versioning a workspace: the sibling ranges of its plugins, which the last pass rewrites in
their package.json files once the package versions of a release plan are written. -/
namespace S2Script.VersionRanges

open Json (quoted valueOf digitsOf)

section Texts

/-- White space and line terminators, as `trim` strips them. -/
def isBlank (c : Char) : Bool :=
  let n := c.toNat
  (9 ≤ n && n ≤ 13) || (0x2000 ≤ n && n ≤ 0x200a) ||
    n ∈ [0x20,0xa0,0x1680,0x2028,0x2029,0x202f,0x205f,0x3000,0xfeff]

def trim (t : Text) : Text := ((t.dropWhile isBlank).reverse.dropWhile isBlank).reverse

/-- `\d+`, with what follows. -/
def dropDigits (t : Text) : Option Text :=
  if t.takeWhile Char.isDigit = [] then none else some (t.dropWhile Char.isDigit)

def dropDot : Text → Option Text
  | '.' :: rest => some rest
  | _ => none

/-- `[0-9A-Za-z.-]`. -/
def isTag (c : Char) : Bool := c.isAlphanum || c == '.' || c == '-'

/-- What an optional group of tag characters behind its mark leaves. -/
def dropTags (mark : Char) : Text → Text
  | [] => []
  | c :: rest => if c = mark ∧ rest.takeWhile isTag ≠ [] then rest.dropWhile isTag else c :: rest

/-- `CONCRETE_SEMVER`. -/
def concreteSemver (t : Text) : Bool :=
  match (dropDigits t).bind dropDot |>.bind dropDigits |>.bind dropDot |>.bind dropDigits with
  | none => false
  | some rest => dropTags '+' (dropTags '-' rest) = []

def isConcreteVersion (v : Text) : Bool := concreteSemver (trim v)

def leadingMajor (t : Text) : Option Nat :=
  let digits := (t.dropWhile fun c => !c.isDigit).takeWhile Char.isDigit
  if digits = [] then none
  else if 0xffffffff < valueOf digits then none else some (valueOf digits)

/-- The rule by which the engine checks a range against a version. -/
def satisfiesRange (version range : Text) : Bool :=
  if trim range = ['*'] then true
  else match leadingMajor range,leadingMajor version with
    | some ra,some va => ra = va
    | _,_ => false

def rangePrefix (range : Text) : Text :=
  match range with
  | '>' :: '=' :: _ => ['>','=']
  | '<' :: '=' :: _ => ['<','=']
  | '^' :: _ => ['^']
  | '~' :: _ => ['~']
  | '>' :: _ => ['>']
  | _ => []

def isWildcardRange (range : Text) : Bool :=
  let t := trim range
  t = [] || t = ['*'] || t = ['x'] || t = ['X']

end Texts

section Packages

/-- `pluginDependencies`: an object has no key twice. -/
structure Dependencies where
  entries : List (Text × Json)
  distinct : (entries.map Prod.fst).Nodup

/-- `Map.set` and the assignment to a property: in place, or behind the others. -/
def setKey {V : Type} (key : Text) (value : V) : List (Text × V) → List (Text × V)
  | [] => [(key,value)]
  | (k,v) :: rest => if k = key then (k,value) :: rest else (k,v) :: setKey key value rest

theorem setKey_keys {V : Type} (key : Text) (value : V) (l : List (Text × V)) :
    (setKey key value l).map Prod.fst = if key ∈ l.map Prod.fst then l.map Prod.fst else l.map Prod.fst ++ [key] := by
  induction l with
  | nil => simp [setKey]
  | cons p rest ih =>
    obtain ⟨k,v⟩ := p
    rw [setKey]
    split
    next same => simp [same]
    next different =>
      simp only [List.map_cons,ih,List.mem_cons]
      split <;> simp_all [eq_comm]

theorem setKey_distinct {V : Type} (key : Text) (value : V) {l : List (Text × V)} (distinct : (l.map Prod.fst).Nodup) :
    ((setKey key value l).map Prod.fst).Nodup := by
  rw [setKey_keys]
  split
  next => exact distinct
  next absent => exact (List.perm_append_singleton _ _).nodup_iff.mpr (List.nodup_cons.mpr ⟨absent,distinct⟩)

def Dependencies.assign (d : Dependencies) (iface range : Text) : Dependencies :=
  ⟨setKey iface (.string range) d.entries,setKey_distinct iface _ d.distinct⟩

/-- The fields of the `s2script` block that the pass reads, and every other one. -/
structure S2script where
  publishes : Option Json
  pluginDependencies : Option Dependencies
  rest : List (Text × Json)

structure PackageJson where
  version : Option Text
  s2script : Option S2script
  rest : List (Text × Json)

structure WorkspacePlugin where
  name : Text
  version : Text
  dir : Text
  pkg : PackageJson

/-- The version of a plugin whose package.json has none. -/
def unversioned : Text := ['0','.','0','.','0']

def PackageJson.publishes (pkg : PackageJson) : Option Json := pkg.s2script.bind S2script.publishes

/-- `Object.entries(pkg.s2script?.pluginDependencies ?? {})`. -/
def PackageJson.dependencies (pkg : PackageJson) : List (Text × Json) :=
  ((pkg.s2script.bind S2script.pluginDependencies).map Dependencies.entries).getD []

/-- The entries of a `publishes` map. -/
def publishedEntries : List (Text × Json) → Except Text (List (Text × Text))
  | [] => .ok []
  | (iface,.string range) :: rest => do
    let out ← publishedEntries rest
    pure ((iface,range) :: out)
  | (iface,_) :: _ => .error ("publishes[".toList ++ quoted iface ++ "] must be a version range string".toList)

def expandPublishes (authored : Option Json) (pkgName pkgVersion : Text) : Except Text (List (Text × Text)) :=
  match authored with
  | none => .ok []
  | some .null => .ok []
  | some (.string text) =>
    if trim text ≠ "self".toList then
      .error ("publishes: the only valid string form is \"self\" (got ".toList ++ quoted text ++
        "); use the map form to publish a differently-named contract".toList)
    else .ok [(pkgName,pkgVersion)]
  | some (.bool _) => .error "publishes must be \"self\" or an object (got boolean)".toList
  | some (.natural _) => .error "publishes must be \"self\" or an object (got number)".toList
  | some (.number ..) => .error "publishes must be \"self\" or an object (got number)".toList
  | some (.object members) => publishedEntries members
  | some (.array items) => publishedEntries (items.zipIdx.map fun (item,i) => (digitsOf i,item))

def publishedInterfaces (plugin : WorkspacePlugin) : Except Text (List (Text × Text)) :=
  expandPublishes plugin.pkg.publishes plugin.name plugin.version

end Packages

section Graph

/-- Who publishes an interface, and the names that several plugins publish. -/
structure InterfaceIndex where
  producers : Text → Option (WorkspacePlugin × Text)
  ambiguous : Text → Bool

/-- One published interface of a plugin. The objects of two plugins are told apart by their names. -/
def InterfaceIndex.add (index : InterfaceIndex) (p : WorkspacePlugin) (published : Text × Text) : InterfaceIndex :=
  match index.producers published.1 with
  | none => { index with producers := Function.update index.producers published.1 (some (p,published.2)) }
  | some existing =>
    if existing.1.name ≠ p.name then { index with ambiguous := Function.update index.ambiguous published.1 true }
    else { index with producers := Function.update index.producers published.1 (some (p,published.2)) }

/-- A malformed `publishes` block is a problem of its plugin, which then publishes nothing. -/
def InterfaceIndex.addPlugin (index : InterfaceIndex) (p : WorkspacePlugin) : InterfaceIndex :=
  match publishedInterfaces p with
  | .error _ => index
  | .ok expanded => expanded.foldl (fun index published => index.add p published) index

/-- The producers of `indexInterfaces`: an ambiguous name resolves to nobody. -/
def producers (plugins : List WorkspacePlugin) (iface : Text) : Option (WorkspacePlugin × Text) :=
  let index := plugins.foldl InterfaceIndex.addPlugin ⟨fun _ => none,fun _ => false⟩
  if index.ambiguous iface then none else index.producers iface

structure RangeViolation where
  consumer : Text
  iface : Text
  range : Text
  producer : Text
  version : Text

/-- One dependency of a plugin. A range that is no string ends the gate with a `TypeError`. -/
def checkDependency (plugins : List WorkspacePlugin) (p : WorkspacePlugin) (dependency : Text × Json) :
    Except Text (List RangeViolation) :=
  match producers plugins dependency.1 with
  | none => .ok []
  | some (producer,version) =>
    if producer.name = p.name then .ok []
    else if isConcreteVersion version = false then .ok []
    else match dependency.2 with
      | .string range =>
        if satisfiesRange version range then .ok []
        else .ok [⟨p.name,dependency.1,range,producer.name,version⟩]
      | _ => .error "range.trim is not a function".toList

def checkAll (plugins : List WorkspacePlugin) : List (WorkspacePlugin × Text × Json) → Except Text (List RangeViolation)
  | [] => .ok []
  | (p,dependency) :: rest => do
    let found ← checkDependency plugins p dependency
    let others ← checkAll plugins rest
    pure (found ++ others)

/-- Every range of the workspace against what its producer publishes. -/
def checkSiblingRanges (plugins : List WorkspacePlugin) : Except Text (List RangeViolation) :=
  checkAll plugins (plugins.flatMap fun p => p.pkg.dependencies.map fun dependency => (p,dependency))

structure SiblingEdge where
  consumer : Text
  producer : Text
  iface : Text
  range : Text

/-- Whether a published version follows the package version. -/
def tracks (p : WorkspacePlugin) (version : Text) : Bool := isConcreteVersion version && trim version = p.version

/-- `producerOf.set`, of an interface that follows the package version. -/
def track (p : WorkspacePlugin) (found : Text → Option WorkspacePlugin) (entry : Text × Text) : Text → Option WorkspacePlugin :=
  if tracks p entry.2 then Function.update found entry.1 (some p) else found

def producerOf : List WorkspacePlugin → (Text → Option WorkspacePlugin) → Except Text (Text → Option WorkspacePlugin)
  | [], found => .ok found
  | p :: rest, found => do
    let published ← publishedInterfaces p
    producerOf rest (published.foldl (track p) found)

def siblingEdge (found : Text → Option WorkspacePlugin) (consumer : WorkspacePlugin) (dependency : Text × Json) :
    Option SiblingEdge :=
  match dependency.2 with
  | .string range =>
    match found dependency.1 with
    | none => none
    | some producer =>
      if producer.name = consumer.name then none else some ⟨consumer.name,producer.name,dependency.1,range⟩
  | _ => none

def siblingEdges (plugins : List WorkspacePlugin) : Except Text (List SiblingEdge) := do
  let found ← producerOf plugins fun _ => none
  pure (plugins.flatMap fun consumer => consumer.pkg.dependencies.filterMap (siblingEdge found consumer))

end Graph

section Pass

inductive BumpType where
  | none
  | patch
  | minor
  | major
deriving DecidableEq

def BumpType.level : BumpType → Nat
  | .none => 0
  | .patch => 1
  | .minor => 2
  | .major => 3

structure ComprehensiveRelease where
  name : Text
  type : BumpType
  oldVersion : Text
  newVersion : Text

/-- The release of a package; the map keeps the last of a name. -/
def releaseOf (releases : List ComprehensiveRelease) (name : Text) : Option ComprehensiveRelease :=
  releases.reverse.find? fun r => r.name = name

/-- `shouldUpdateDependencyBasedOnConfig`. A setting that is no bump type counts as `patch`. -/
def shouldUpdate (satisfies : Text → Text → Bool) (release : ComprehensiveRelease) (range : Text)
    (updateInternalDependencies : Option BumpType) : Bool :=
  if satisfies release.newVersion range = false then true
  else (updateInternalDependencies.getD .patch).level ≤ release.type.level

structure RangeRewrite where
  consumer : Text
  producer : Text
  iface : Text
  source : Text
  target : Text

structure RangeSkip where
  consumer : Text
  producer : Text
  iface : Text
  range : Text
  reason : Text

/-- The rewrites and skips so far, and the edits of each consumer by interface. -/
structure Pass where
  rewrites : List RangeRewrite
  skips : List RangeSkip
  edits : List (Text × List (Text × Text))

def getKey {V : Type} (key : Text) (l : List (Text × V)) : Option V := (l.find? fun p => p.1 = key).map Prod.snd

def Pass.skip (pass : Pass) (edge : SiblingEdge) (reason : Text) : Pass :=
  { pass with skips := pass.skips ++ [⟨edge.consumer,edge.producer,edge.iface,edge.range,reason⟩] }

def Pass.rewrite (pass : Pass) (edge : SiblingEdge) (target : Text) : Pass :=
  { pass with
    rewrites := pass.rewrites ++ [⟨edge.consumer,edge.producer,edge.iface,edge.range,target⟩]
    edits := setKey edge.consumer (setKey edge.iface target ((getKey edge.consumer pass.edits).getD [])) pass.edits }

/-- Whether the range is an operator in front of a version. -/
def simpleRange (range : Text) : Bool := isConcreteVersion (range.drop (rangePrefix range).length)

def Pass.visit (satisfies : Text → Text → Bool) (releases : List ComprehensiveRelease) (config : Option BumpType)
    (pass : Pass) (edge : SiblingEdge) : Pass :=
  match releaseOf releases edge.producer with
  | none => pass
  | some release =>
    if release.newVersion = release.oldVersion then pass
    else if shouldUpdate satisfies release edge.range config = false then pass
    else if isWildcardRange edge.range then pass.skip edge "range matches any version — left exactly as authored".toList
    else if simpleRange edge.range = false then
      pass.skip edge ("not a simple <operator><version> range — rewrite it by hand to track ".toList ++ release.newVersion)
    else
      let target := rangePrefix edge.range ++ release.newVersion
      if target = edge.range then pass else pass.rewrite edge target

end Pass

section Files

/-- From here on a number is infinite to the language. -/
def infinite : Nat := 2 ^ 1024 - 2 ^ 970

def exceeds (mantissa : Nat) (exponent : Int) : Bool :=
  if 0 ≤ exponent then infinite ≤ mantissa * 10 ^ exponent.toNat else infinite * 10 ^ (-exponent).toNat ≤ mantissa

mutual

/-- A value written with `JSON.stringify` and read again: an infinite number comes back as null
and a negative zero without its sign. -/
def savedJson : Json → Json
  | .natural n => if exceeds n 0 then .null else .natural n
  | .number negative mantissa exponent =>
    if mantissa = 0 then if negative then .natural 0 else .number negative mantissa exponent
    else if exceeds mantissa exponent then .null else .number negative mantissa exponent
  | .array items => .array (savedItems items)
  | .object members => .object (savedMembers members)
  | value => value

def savedItems : List Json → List Json
  | [] => []
  | item :: items => savedJson item :: savedItems items

def savedMembers : List (Text × Json) → List (Text × Json)
  | [] => []
  | (key,value) :: members => (key,savedJson value) :: savedMembers members

end

theorem savedMembers_keys (members : List (Text × Json)) : (savedMembers members).map Prod.fst = members.map Prod.fst := by
  induction members with
  | nil => rfl
  | cons p rest ih => rw [savedMembers,List.map_cons,List.map_cons,ih]

def Dependencies.saved (d : Dependencies) : Dependencies :=
  ⟨savedMembers d.entries,by rw [savedMembers_keys]; exact d.distinct⟩

def S2script.saved (s : S2script) : S2script :=
  ⟨s.publishes.map savedJson,s.pluginDependencies.map Dependencies.saved,savedMembers s.rest⟩

def PackageJson.saved (pkg : PackageJson) : PackageJson :=
  ⟨pkg.version,pkg.s2script.map S2script.saved,savedMembers pkg.rest⟩

/-- The package.json file of each directory. -/
abbrev Disk := Text → Option PackageJson

def Dependencies.assignAll (d : Dependencies) (ranges : List (Text × Text)) : Dependencies :=
  ranges.foldl (fun d entry => d.assign entry.1 entry.2) d

/-- Write the edits of each consumer to its package.json, read back from the disk. -/
def writeEdits (plugins : List WorkspacePlugin) :
    List (Text × List (Text × Text)) → Disk → List Text → Except Text (Disk × List Text)
  | [], disk, touched => .ok (disk,touched)
  | (consumerName,ifaceRanges) :: rest, disk, touched =>
    match plugins.find? fun p => p.name = consumerName with
    | none => writeEdits plugins rest disk touched
    | some plugin =>
      match disk plugin.dir with
      | none => .error "ENOENT: no such file or directory".toList
      | some json =>
        match json.s2script with
        | none => writeEdits plugins rest disk touched
        | some s2 =>
          match s2.pluginDependencies with
          | none => writeEdits plugins rest disk touched
          | some d =>
            let written := { json with s2script := some { s2 with pluginDependencies := some (d.assignAll ifaceRanges) } }
            writeEdits plugins rest (Function.update disk plugin.dir (some written.saved)) (touched ++ [plugin.dir])

structure RangeRewriteResult where
  rewrites : List RangeRewrite
  skips : List RangeSkip
  touchedFiles : List Text

/-- The pass, from the files that hold the new package versions. -/
def rewriteSiblingRanges (satisfies : Text → Text → Bool) (plugins : List WorkspacePlugin)
    (releases : List ComprehensiveRelease) (config : Option BumpType) (disk : Disk) :
    Except Text (RangeRewriteResult × Disk) := do
  let edges ← siblingEdges plugins
  let pass := edges.foldl (Pass.visit satisfies releases config) ⟨[],[],[]⟩
  let (disk,touched) ← writeEdits plugins pass.edits disk []
  pure (⟨pass.rewrites,pass.skips,touched⟩,disk)

end Files

end S2Script.VersionRanges
