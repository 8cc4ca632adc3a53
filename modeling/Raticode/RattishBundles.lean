import Mathlib.Data.List.Dedup
import Mathlib.Data.List.DropRight
import Mathlib.Data.List.Lex
import Mathlib.Data.List.Sort
import Raticode.OrderedDict
import Raticode.PyDocument
import Raticode.RattishLexer

/-! `gofer.rattish.bundles`: the archive a workflow folder is exported to, the checks an
archive passes before it is imported, and the folder it is unpacked to. -/
namespace Raticode.Bundle
open PyDocument Attempt OrderedDict

structure Host where
  casefold : Str → Str
  upper : Str → Str
  fnmatchcase : Str → Str → Bool
  /-- `(json.dumps(value, indent=2) + "\n").encode()`. -/
  dumped : Value → Bytes
  /-- `json.loads(content.decode("utf-8"))`, where it gives a value. -/
  loaded : Bytes → Option Value
  deflated : Bytes → ℕ
  setOrder : List Str → List Str
  setOrder_perm : ∀ members, (setOrder members).Perm members.dedup
  newMode : ℕ

/-- A result, or the text of a `RattishBundleError`. -/
abbrev Checked := Except Str

structure ResourceLimits where
  maxBundleEntries : ℕ
  maxBundleEntryBytes : ℕ
  maxBundleTotalUncompressedBytes : ℕ
  maxBundleMetadataBytes : ℕ
  maxBundleCompressionRatio : ℕ

def defaultResourceLimits : ResourceLimits := ⟨1000, 10000000, 64000000, 1048576, 100⟩

def bundleManifest : Str := text "raticode.bundle.json"

def legacyBundleFormats : Dict Str Str :=
  [(text "murina-code.bundle.json", text "murina-code-workflow"),
    (text "taskurotta.bundle.json", text "taskurotta-workflow")]

def workflowEntrypoint : Str := text "workflow.rattish"

def workflowIgnore : Str := text ".raticodeignore"

def legacyWorkflowIgnores : List Str := [text ".murina-codeignore", text ".taskurottaignore"]

def windowsDevices : List Str :=
  [text "CON", text "PRN", text "AUX", text "NUL", text "CONIN$", text "CONOUT$"] ++
    [text "COM", text "LPT"].flatMap (fun name =>
      (text "123456789¹²³").map (fun number => name ++ [number]))

/-! Paths. -/

/-- `"/".join(parts)`. -/
def slashed (parts : List Str) : Str := [47].intercalate parts

/-- `PurePosixPath(name).parts`, of a path that is relative. -/
def parts (name : Str) : List Str :=
  (name.splitOn 47).filter (fun part => part ≠ [] && part ≠ text ".")

def portablePart (h : Host) (part : Str) : Bool :=
  !(part.getLast? = some 46 || part.getLast? = some 32 ||
    windowsDevices.contains
      (h.upper ((part.takeWhile (fun c => c ≠ 46)).rdropWhile (fun c => c = 32))))

/-- The condition of `_validate_bundle_path`. -/
def validBundlePath (h : Host) (name : Str) : Bool :=
  name ≠ [] && parts name ≠ [] && name.head? ≠ some 47 && !(parts name).contains (text "..") &&
    slashed (parts name) = name && !name.any (fun c => (text "\\:<>\"|?*").contains c) &&
    !name.any (fun c => c < 32) && (parts name).all (portablePart h)

def unsafePath (name : Str) : Str := text "Unsafe workflow bundle path: " ++ name

def validateBundlePath (h : Host) (name : Str) : Checked Unit :=
  require (validBundlePath h name) (unsafePath name)

structure Seen where
  spellings : Dict Str Str
  files : List Str
  directories : List Str

def impliedPaths (name : Str) : List (Str × Bool) :=
  (List.range (parts name).length).map (fun i =>
    (slashed ((parts name).take (i + 1)), decide (i + 1 = (parts name).length)))

def Seen.meet (h : Host) (name : Str) (seen : Seen) (spelling : Str × Bool) : Checked Seen :=
  let key := h.casefold spelling.1
  let previous := (seen.spellings.get key).getD spelling.1
  if previous ≠ spelling.1 || seen.files.contains key ||
      (spelling.2 && seen.directories.contains key) then
    .error (text "Colliding workflow bundle paths: " ++ previous ++ text ", " ++ name)
  else
    .ok ⟨seen.spellings.setDefault key spelling.1,
      if spelling.2 then key :: seen.files else seen.files,
      if spelling.2 then seen.directories else key :: seen.directories⟩

def Seen.meetNames (h : Host) : Seen → List Str → Checked Seen
  | seen, [] => .ok seen
  | seen, name :: names => do
    validateBundlePath h name
    let seen ← (impliedPaths name).foldlM (Seen.meet h name) seen
    Seen.meetNames h seen names

def validateBundlePathCollisions (h : Host) (names : List Str) : Checked Unit := do
  let _ ← Seen.meetNames h ⟨[], [], []⟩ names
  pure ()

/-! The workflow folder. -/

inductive Node where
  | file (content : Bytes) (bits : Fin 0o10000)
  | directory
  | other

inductive Kind where
  | plain (node : Node)
  | link (target : Option Node)

structure Item where
  relative : Str
  kind : Kind

namespace Item

def node (item : Item) : Option Node :=
  match item.kind with
  | .plain node => some node
  | .link target => target

def isDir (item : Item) : Bool :=
  match item.node with
  | some .directory => true
  | _ => false

end Item

structure Workflow where
  workflowId : Str
  name : Str
  workflowRoot : List Str
  items : List Item
  nodup : (items.map Item.relative).Nodup

namespace Workflow

def item (w : Workflow) (relative : Str) : Option Item :=
  w.items.find? (fun item => item.relative = relative)

/-- `(workflow_root / relative).exists()`. -/
def existsAt (w : Workflow) (relative : Str) : Bool :=
  ((w.item relative).bind Item.node).isSome

def ignorePath (w : Workflow) : Str :=
  legacyWorkflowIgnores.foldl (fun path name => if w.existsAt path then path else name)
    workflowIgnore

end Workflow

def ignorePattern (raw : List Char) : Option (Str × Bool) :=
  let line := raw.rdropWhile PyText.isSpace
  if line = [] || (line.dropWhile PyText.isSpace).head? = some '#' then none
  else
    let negated := line.head? = some '!'
    let pattern := if negated then line.tail else line
    if pattern = [] then none
    else some (pattern.map (fun c => if c = '\\' then 47 else c.toNat), negated)

def readIgnorePatterns (path : Str) : Option Node → Checked (List (Str × Bool))
  | some (.file content _) =>
    match decodeUtf8 content with
    | none => .error (text "Could not read " ++ path)
    | some characters => .ok ((Rattish.splitlines characters).filterMap ignorePattern)
  | _ => .ok []

def matchPathParts (h : Host) : List Str → List Str → Bool
  | path, [] => path.isEmpty
  | [], first :: pattern => first = text "**" && matchPathParts h [] pattern
  | part :: path, first :: pattern =>
    if first = text "**" then
      matchPathParts h (part :: path) pattern || matchPathParts h path (first :: pattern)
    else h.fnmatchcase part first && matchPathParts h path pattern
termination_by path pattern => path.length + pattern.length

def patternMatches (h : Host) (relative : Str) (isDirectory : Bool) (pattern : Str) : Bool :=
  let directoryPattern := pattern.getLast? = some 47
  let normalized := (pattern.dropWhile (fun c => c = 47)).rdropWhile (fun c => c = 47)
  let pathParts := parts relative
  if normalized = [] then false
  else if normalized.contains 47 then
    let candidates :=
      if directoryPattern then
        let candidates := pathParts.inits.tail
        if isDirectory then candidates else candidates.dropLast
      else [pathParts]
    candidates.any (fun candidate => matchPathParts h candidate (parts normalized))
  else
    let candidates :=
      if isDirectory || !directoryPattern then pathParts else pathParts.dropLast
    candidates.any (fun part => h.fnmatchcase part normalized)

def isIgnored (h : Host) (relative : Str) (isDirectory : Bool) (patterns : List (Str × Bool)) :
    Bool :=
  patterns.foldl (fun ignored pattern =>
    if patternMatches h relative isDirectory pattern.1 then !pattern.2 else ignored) false

structure File where
  path : Str
  content : Bytes
  mode : ℕ

def bundledName (relative : Str) : Str :=
  if legacyWorkflowIgnores.contains relative then workflowIgnore else relative

def passedOver (h : Host) (w : Workflow) (patterns : List (Str × Bool)) (item : Item) : Bool :=
  legacyWorkflowIgnores.contains item.relative && item.relative ≠ w.ignorePath ||
    isIgnored h item.relative item.isDir patterns

def portableFile (h : Host) (w : Workflow) (patterns : List (Str × Bool)) (item : Item) :
    Checked (List File) :=
  if passedOver h w patterns item then .ok []
  else
    match item.kind with
    | .link _ =>
      .error (text "Workflow bundle cannot include symbolic link: " ++ item.relative)
    | .plain (.file content bits) => do
      validateBundlePath h item.relative
      pure [⟨bundledName item.relative, content, 0o100000 + bits⟩]
    | .plain _ => .ok []

/-- `sorted(workflow_root.rglob("*"))`. -/
def sortedItems (w : Workflow) : List Item :=
  w.items.mergeSort (fun a b => parts a.relative ≤ parts b.relative)

def collectFiles (h : Host) (w : Workflow) (patterns : List (Str × Bool)) :
    List Item → Checked (List File)
  | [] => .ok []
  | item :: items => do
    let found ← portableFile h w patterns item
    let files ← collectFiles h w patterns items
    pure (found ++ files)

def Workflow.patterns (w : Workflow) : Checked (List (Str × Bool)) :=
  readIgnorePatterns w.ignorePath ((w.item w.ignorePath).bind Item.node)

def portableWorkspaceFiles (h : Host) (w : Workflow) : Checked (List File) := do
  let patterns ← w.patterns
  let files ← collectFiles h w patterns (sortedItems w)
  require ((files.map File.path).contains workflowEntrypoint)
    (workflowIgnore ++ text " excludes required " ++ workflowEntrypoint)
  pure files

/-! The archive. -/

/-- An entry of an archive as `zipfile` reads it. -/
structure ZipInfo where
  filename : Str
  origFilename : Str
  externalAttr : ℕ
  flagBits : ℕ
  compressType : ℕ
  createSystem : ℕ
  fileSize : ℕ
  compressSize : ℕ
  content : Bytes

def zipped (h : Host) (file : File) : ZipInfo where
  filename := file.path
  origFilename := file.path
  externalAttr := file.mode <<< 16
  flagBits := if file.path.all (fun c => c < 128) then 0 else 0x800
  compressType := 8
  createSystem := 3
  fileSize := file.content.length
  compressSize := h.deflated file.content
  content := file.content

/-- `sorted(names)`. -/
def sortedNames (names : List Str) : List Str := names.mergeSort (fun a b => a ≤ b)

def manifest (workflowId workflowName : Str) (files : List Str) : Value :=
  .dict [(.str (text "format"), .str (text "raticode-workflow")),
    (.str (text "version"), .int 1),
    (.str (text "workflowId"), .str workflowId),
    (.str (text "workflowName"), .str workflowName),
    (.str (text "files"), .list (files.map Value.str))]

def reserved : List Str := bundleManifest :: legacyBundleFormats.keys

/-- The entry of the manifest, which `writestr` gives the mode 0o600. -/
def manifestFile (h : Host) (w : Workflow) (included : List Str) : File :=
  ⟨bundleManifest, h.dumped (manifest w.workflowId w.name (sortedNames included)), 0o600⟩

/-- `export_rattish_bundle` into the file with these parts: the entries of the archive
that is written. -/
def exportRattishBundle (h : Host) (w : Workflow) (output : List Str) :
    Checked (List ZipInfo) := do
  require (!w.workflowRoot.isPrefixOf output)
    (text "Export the bundle outside the workflow folder")
  let files ← portableWorkspaceFiles h w
  let included := (files.map File.path).dedup
  require (!included.any reserved.contains)
    (text "Workflow contains reserved bundle file " ++ bundleManifest)
  validateBundlePathCollisions h (bundleManifest :: h.setOrder included)
  -- a name that cannot be encoded stops the archive
  require (included.all (fun name => !name.any isSurrogate))
    (text "surrogates not allowed")
  pure ((manifestFile h w included :: files).map (zipped h))

/-- `stat.S_IFMT(mode)`, moved to the last bits. -/
def format (mode : ℕ) : ℕ := mode / 0o10000 % 0o20

def isLnk (mode : ℕ) : Bool := format mode = 0o12

def isReg (mode : ℕ) : Bool := format mode = 0o10

def checkInfos (h : Host) (limits : ResourceLimits) :
    List Str → ℕ → List ZipInfo → Checked Unit
  | _, _, [] => .ok ()
  | names, total, info :: infos => do
    validateBundlePath h info.filename
    require (info.origFilename = info.filename && !names.contains info.filename)
      (unsafePath info.filename)
    require (!isLnk (info.externalAttr >>> 16))
      (text "Workflow bundle contains symbolic link: " ++ info.filename)
    require (info.flagBits &&& 0x41 = 0)
      (text "Workflow bundle contains encrypted file: " ++ info.filename)
    require (info.flagBits &&& 0x20 = 0)
      (text "Workflow bundle contains unsupported patched file: " ++ info.filename)
    require (info.compressType = 0 || info.compressType = 8)
      (text "Workflow bundle uses unsupported compression: " ++ info.filename)
    require (info.fileSize ≤ limits.maxBundleEntryBytes)
      (text "Workflow bundle file exceeds size limit: " ++ info.filename)
    require (total + info.fileSize ≤ limits.maxBundleTotalUncompressedBytes)
      (text "Workflow bundle exceeds the expanded size limit")
    require (info.compressSize = 0 ||
        info.fileSize ≤ limits.maxBundleCompressionRatio * info.compressSize)
      (text "Workflow bundle compression ratio is unsafe: " ++ info.filename)
    checkInfos h limits (info.filename :: names) (total + info.fileSize) infos

def validateArchive (h : Host) (limits : ResourceLimits) (infos : List ZipInfo) :
    Checked Unit := do
  require (infos.length ≤ limits.maxBundleEntries) (text "Workflow bundle contains too many files")
  validateBundlePathCollisions h (infos.map ZipInfo.filename)
  checkInfos h limits [] 0 infos

def manifestName (infos : List ZipInfo) : Checked Str :=
  match reserved.filter (fun name => (infos.map ZipInfo.filename).contains name) with
  | [name] => .ok name
  | _ => .error (text "Workflow bundle must contain exactly one supported manifest")

/-- `archive.getinfo(name)`: the last entry of the name. -/
def getinfo (infos : List ZipInfo) (name : Str) : Option ZipInfo :=
  infos.reverse.find? (fun info => info.filename = name)

def member (name : String) : Value → Option Value
  | .dict members =>
    (members.find? (fun member => (Key.str (text name)).eq member.1)).map Prod.snd
  | _ => none

def string : Value → Option Str
  | .str s => some s
  | _ => none

mutual
def tooDeep (depth : ℕ) : Value → Bool
  | .list items => depth > 64 || tooDeepItems (depth + 1) items
  | .dict members => depth > 64 || tooDeepMembers (depth + 1) members
  | _ => depth > 64

def tooDeepItems (depth : ℕ) : List Value → Bool
  | [] => false
  | item :: items => tooDeep depth item || tooDeepItems depth items

def tooDeepMembers (depth : ℕ) : List (Key × Value) → Bool
  | [] => false
  | (_, item) :: items => tooDeep depth item || tooDeepMembers depth items
end

structure Manifest where
  workflowId : Str
  workflowName : Str
  files : List Str

def manifestMembers (name : Str) (value : Value) : Option Manifest := do
  let format ← member "format" value
  guard (eqValue format
    (.str ((legacyBundleFormats.get name).getD (text "raticode-workflow"))))
  let version ← member "version" value
  guard (eqValue version (.int 1))
  let workflowId ← (member "workflowId" value).bind string
  let workflowName ← (member "workflowName" value).bind string
  match member "files" value with
  | some (.list items) => do
    let files ← items.mapM string
    pure ⟨workflowId, workflowName, files⟩
  | _ => none

def readManifest (h : Host) (limits : ResourceLimits) (infos : List ZipInfo) :
    Checked Manifest := do
  let name ← manifestName infos
  match getinfo infos name with
  | none => .error (text "Workflow bundle has no valid manifest")
  | some info => do
    require (info.fileSize ≤ limits.maxBundleMetadataBytes)
      (text "Workflow bundle manifest exceeds the size limit")
    match h.loaded (info.content.take (info.fileSize + 1)) with
    | none => .error (text "Workflow bundle has no valid manifest")
    | some value => do
      require (!tooDeep 0 value) (text "Workflow bundle manifest nesting is too deep")
      match manifestMembers name value with
      | none => .error (text "Workflow bundle manifest is invalid or unsupported")
      | some manifest => .ok manifest

def previewArchive (h : Host) (limits : ResourceLimits) (infos : List ZipInfo) :
    Checked Manifest := do
  let manifest ← readManifest h limits infos
  let name ← manifestName infos
  let names := sortedNames ((infos.map ZipInfo.filename).filter (fun n => n ≠ name))
  require (names = sortedNames manifest.files)
    (text "Bundle file list does not match its manifest")
  require (names.contains workflowEntrypoint || names.contains (text "workflow.rad"))
    (text "Bundle is missing required " ++ workflowEntrypoint)
  pure ⟨manifest.workflowId, manifest.workflowName, names⟩

def nested (a b : List Str) : Bool := a ≠ b && (a.isPrefixOf b || b.isPrefixOf a)

def stageFile (h : Host) (infos : List ZipInfo) (staged : List File) (name : Str) :
    Checked (List File) :=
  match getinfo infos name with
  | none => .error (text "There is no item named " ++ name)
  | some info =>
    if staged.any (fun file => nested (parts file.path) (parts name)) then
      .error (text "Could not import workflow bundle: " ++ name)
    else
      let mode := info.externalAttr >>> 16
      .ok (staged.filter (fun file => parts file.path ≠ parts name) ++
        [⟨name, info.content,
          if info.createSystem = 3 && isReg mode then mode % 0o1000 else h.newMode⟩])

/-- The folder `_install_archive` stages. -/
def stagedFiles (h : Host) (infos : List ZipInfo) (preview : Manifest) : Checked (List File) :=
  preview.files.foldlM (stageFile h infos) []

end Raticode.Bundle
