import S2Script.LoaderFiles
import S2Script.Utf8Lossy

/-! What the loader worker reads: directories, files read twice until they agree, archives and their
members. Every read stays within the limits of the policy, and every answer has a weight. -/
namespace S2Script.LoaderWorker

/-! ### The filesystem and the archives -/

inductive OpenError where
  | notFound (message : String)
  | other (message : String)

def OpenError.message : OpenError → String
  | .notFound message | .other message => message

structure Metadata where
  isFile : Bool
  stamp : FileStamp

/-- An open file: its metadata before and after, and the bytes a bounded read gets. -/
structure OpenFile where
  before : Except String Metadata
  read : Nat → Except String (List UInt8)
  after : Except String Metadata

structure DirEntry where
  path : Path
  metadata : Except String Metadata

/-- What the system answers; a file is opened twice for one stable read. -/
structure Files where
  readDir : Path → Except OpenError (List (Except String DirEntry))
  openFirst : Path → Except OpenError OpenFile
  openSecond : Path → Except OpenError OpenFile
  shown : Path → String

structure ZipEntry where
  size : Nat
  read : Nat → Except String (List UInt8)

structure ZipArchive where
  entries : List (Except String (String × Nat))
  byName : String → Option ZipEntry

structure ParsedManifest where
  manifest : Manifest
  engineFunctions : Bool

/-- The archive library and the checks of a manifest. -/
structure Archives where
  openZip : List UInt8 → Except String ZipArchive
  parseManifest : String → Except String ParsedManifest
  validateManifest : Manifest → Except String Unit
  isReservedOwner : String → Bool
  reservedOwnerPrefix : String
  shown : String → String
  brokenAt : List UInt8 → String
  parseContract : String → Manifest → Except String Unit

/-! ### Reads -/

def readOpenFile (file : OpenFile) (shown : String) (limit : Nat) : Except String (List UInt8 × FileStamp) := do
  let before ← Except.mapError (fun e => s!"read {shown}: metadata: {e}") file.before
  if !before.isFile then .error s!"read {shown}: not a regular file"
  else if limit < before.stamp.len then .error s!"read {shown}: byte limit {limit} exceeded"
  else
    let bytes ← Except.mapError (fun e => s!"read {shown}: {e}") (file.read (saturatingAdd limit 1))
    if limit < bytes.length then .error s!"read {shown}: byte limit {limit} exceeded"
    else
      let after ← Except.mapError (fun e => s!"read {shown}: metadata: {e}") file.after
      if before.stamp ≠ after.stamp ∨ bytes.length ≠ after.stamp.len then .error s!"read {shown}: changed while reading"
      else .ok (bytes,after.stamp)

/-- Two reads that agree. -/
def stableRead (files : Files) (path : Path) (limit : Nat) : Except String (List UInt8 × FileStamp) :=
  match files.openFirst path with
  | .error (.notFound _) => .error s!"missing: {files.shown path}"
  | .error (.other e) => .error s!"read {files.shown path}: open: {e}"
  | .ok file => do
    let first ← readOpenFile file (files.shown path) limit
    match files.openSecond path with
    | .error e => .error s!"read {files.shown path}: changed while reading: {e.message}"
    | .ok file =>
      let second ← readOpenFile file (files.shown path) limit
      if first.2 ≠ second.2 ∨ first.1 ≠ second.1 then .error s!"read {files.shown path}: changed while reading"
      else .ok second

/-! ### Scans -/

/-- `Path::extension`: what follows the last dot of the name, if something precedes it. -/
def extension (path : Path) : Option (List UInt8) :=
  let name := ((path.splitOn 47).getLast?.getD []).reverse
  let after := name.takeWhile (· ≠ 46)
  if (name.drop (after.length + 1)).isEmpty then none else some after.reverse

def pluginExtension : List UInt8 := [0x73,0x32,0x73,0x70]

/-- One pass over the entries, with the candidates found, the path bytes and the entries seen. -/
def scanEntries (policy : LoaderPolicy) (files : Files) (dir : Path) :
    List (Except String DirEntry) → List (Path × FileStamp) → Nat → Nat → Except String (List (Path × FileStamp))
  | [], out, _, _ => .ok out
  | entry :: rest, out, totalPathBytes, examined =>
    if policy.scanEntries < examined + 1 then .error s!"plugin scan {files.shown dir}: entry limit exceeded"
    else match entry with
      | .error e => .error s!"plugin scan {files.shown dir}: {e}"
      | .ok entry =>
        let total := saturatingAdd totalPathBytes entry.path.length
        if policy.pathBytes < total then .error s!"plugin scan {files.shown dir}: path byte limit exceeded"
        else if extension entry.path ≠ some pluginExtension then scanEntries policy files dir rest out total (examined + 1)
        else match entry.metadata with
          | .error e => .error s!"plugin scan {files.shown entry.path}: {e}"
          | .ok metadata =>
            if !metadata.isFile then scanEntries policy files dir rest out total (examined + 1)
            else if policy.scanCandidates ≤ out.length then .error s!"plugin scan {files.shown dir}: candidate limit exceeded"
            else scanEntries policy files dir rest (out ++ [(entry.path,metadata.stamp)]) total (examined + 1)

def scanPlugins (policy : LoaderPolicy) (files : Files) (dir : Path) : Except String (List (Path × FileStamp)) :=
  match files.readDir dir with
  | .error (.notFound _) => .ok []
  | .error (.other e) => .error s!"plugin scan {files.shown dir}: {e}"
  | .ok entries => do
    let out ← scanEntries policy files dir entries [] 0 0
    .ok (out.insertionSort fun a b => Loader.pathBefore a.1 b.1)

/-! ### Archives -/

def readZipMember (brokenAt : List UInt8 → String) (archive : ZipArchive) (name : String) (limit : Nat) (required : Bool) :
    Except String (Option String) :=
  match archive.byName name with
  | none => if required then .error s!"read_s2sp: missing {name} in archive" else .ok none
  | some entry =>
    if limit < entry.size then .error s!"read_s2sp: {name} exceeds byte limit {limit}"
    else do
      let bytes ← Except.mapError (fun e => s!"read_s2sp: failed to read {name}: {e}") (entry.read (saturatingAdd limit 1))
      if limit < bytes.length then .error s!"read_s2sp: {name} exceeds byte limit {limit}"
      else match String.fromUTF8? ⟨bytes.toArray⟩ with
        | some text => .ok (some text)
        | none => .error s!"read_s2sp: invalid UTF-8 in {name}: {brokenAt bytes}"

/-- The names of an archive: how many members it has, and the bytes they take. -/
def checkEntries (limits : ParseLimits) : List (Except String (String × Nat)) → Nat → Nat → Nat → Except String Unit
  | [], _, _, _ => .ok ()
  | entry :: rest, index, nameBytes, engineMembers =>
    match entry with
    | .error e => .error s!"read_s2sp: invalid archive entry {index}: {e}"
    | .ok (name,raw) =>
      let engines := if name = "engine-functions.json" then engineMembers + 1 else engineMembers
      let total := saturatingAdd nameBytes raw
      if 1 < engines then .error "read_s2sp: duplicate engine-functions.json"
      else if limits.memberNameBytes < total then
        .error s!"read_s2sp: archive member-name byte limit {limits.memberNameBytes} exceeded"
      else checkEntries limits rest (index + 1) total engines

structure ParsedArchive where
  manifest : Manifest
  js : String
  gamedata : Option String
  engineFunctions : Option String
  manifestBytes : Nat

/-- The summary of a manifest and the member it summarises come together. -/
def checkContract (archives : Archives) (parsed : ParsedManifest) (engineFunctions : Option String) : Except String Unit :=
  match parsed.engineFunctions, engineFunctions with
  | true, some member => archives.parseContract member parsed.manifest
  | false, none => .ok ()
  | _, _ => .error "read_s2sp: engineFunctions summary/member presence mismatch"

def parseS2spParts (archives : Archives) (limits : ParseLimits) (bytes : List UInt8) : Except String ParsedArchive := do
  let archive ← Except.mapError (fun e => s!"read_s2sp: not a valid zip: {e}") (archives.openZip bytes)
  if limits.zipEntries < archive.entries.length then .error s!"read_s2sp: archive entry limit {limits.zipEntries} exceeded"
  else
    checkEntries limits archive.entries 0 0 0
    let manifestJson := (← readZipMember archives.brokenAt archive "manifest.json" limits.manifestBytes true).getD ""
    let parsed ← Except.mapError (fun e => s!"read_s2sp: invalid manifest.json: {e}") (archives.parseManifest manifestJson)
    archives.validateManifest parsed.manifest
    if archives.isReservedOwner parsed.manifest.id then
      .error (s!"read_s2sp: manifest id {archives.shown parsed.manifest.id} is in the reserved '{archives.reservedOwnerPrefix}' " ++
        "namespace, which belongs to the runtime — rename the plugin")
    else
      let js := (← readZipMember archives.brokenAt archive "plugin.js" limits.pluginJsBytes true).getD ""
      let gamedata := match readZipMember archives.brokenAt archive "gamedata.json" limits.gamedataBytes false with
        | .ok member => member
        | .error _ => none
      let engineFunctions ← readZipMember archives.brokenAt archive "engine-functions.json" limits.engineFunctionsBytes false
      checkContract archives parsed engineFunctions
      .ok ⟨parsed.manifest,js,gamedata,engineFunctions,manifestJson.utf8ByteSize⟩

def sizeOf (member : Option String) : Nat := (member.map String.utf8ByteSize).getD 0

def ParsedArchive.residentBytes (parsed : ParsedArchive) : Nat :=
  saturatingAdd (saturatingAdd (saturatingAdd (saturatingAdd parsed.js.utf8ByteSize (sizeOf parsed.gamedata))
    (sizeOf parsed.engineFunctions)) parsed.manifestBytes) 64

def prepare (policy : LoaderPolicy) (files : Files) (archives : Archives) (path : Path) : Except String PreparedPlugin := do
  let (bytes,stamp) ← stableRead files path policy.archiveBytes
  let parsed ← parseS2spParts archives policy.parse bytes
  .ok ⟨parsed.manifest,stamp,parsed.residentBytes⟩

/-- The answers a request gets: a config is decoded lossily. -/
def Files.disk (files : Files) (archives : Archives) (policy : LoaderPolicy) : Disk where
  scanPlugins := scanPlugins policy files
  prepare := prepare policy files archives
  stableRead path := do
    let (bytes,stamp) ← stableRead files path policy.configBytes
    .ok (String.ofList (Utf8.lossy bytes),stamp)

/-- What a result counts for while it waits. -/
def WorkerResult.weight : WorkerResult → Nat
  | .scan _ _ (.ok entries) => (entries.map fun entry => entry.1.length + 96).sum
  | .scan _ _ (.error _) => 256
  | .plugin _ _ path (.ok prepared) => path.length + prepared.residentBytes
  | .plugin _ _ path (.error _) => path.length + 256
  | .config _ _ path _ snapshot =>
    path.length + match snapshot with
      | .ok ⟨some content,_,_⟩ => content.utf8ByteSize
      | _ => 128

end S2Script.LoaderWorker
