import Lionagi.Library.Interference
import Lionagi.Library.OrderedDict
import Lionagi.Plugins.Manifest

/-!
# Discovery and trust

What the registry looks at outside of the process can be edited between any two looks: the manifests and
files of the bundles and the user's settings, which hold the enabled flags and the trust store. A bundle is
trusted when the hashes of its manifest and of its files are those of the store.
-/

namespace Lionagi.Plugins

open Interference
open Interference.Routine (look act update lift)

/-- The installed program, its hash function and the directories' names. -/
structure Installation (D : Type) where
  chars : CharTable
  sha256 : Bytes → Text
  /-- The installed version lies in the set of the specifier. -/
  satisfies : Text → Bool
  dirName : D → Text

/-- Why a target was not activated. -/
inductive Refusal where
  | notActive
  | noLongerTrusted
  | toolCollision (tool : Text) (owners : List Text)
  | undeclared
  | notFound
  | mismatch
  | raised
  deriving DecidableEq

/-- The exceptions of a call. What is raised by the file system, the parser of the settings or the executed
code is `other`. -/
inductive Fault where
  | activation (refusal : Refusal)
  | fileNotFound
  | permission
  | attributeError
  | typeError
  | keyError
  | other
  deriving DecidableEq

/-- What comes of executing bytes: a module with its attributes, or an exception. -/
inductive Ran (β : Type) where
  | module (object : β) (attr : Text → Option β)
  | exception
  | baseException

/-- `getattr(module, attr) if attr else module` -/
def Ran.object? {β : Type} (ran : Ran β) (attr : Option Text) : Option β :=
  match ran, attr with
  | .module object _, none => some object
  | .module _ attrs, some name => attrs name
  | _, _ => none

/-- What lies outside of the process. -/
structure World (D β : Type) where
  bundles : Except Fault (List D)
  manifest : D → Except Fault (Option PluginManifest)
  inside : D → Text → Except Fault Bool
  file : D → Text → Option Bytes
  settings : Except Fault PyJson
  run : Bytes → Ran β

inductive PluginState where
  | active
  | disabled
  | untrusted
  | changed
  | incompatible
  | invalid
  | collision
  deriving DecidableEq

/-- A plugin as the cached scan has it. -/
structure PluginRecord (D : Type) where
  name : Text
  bundleDir : D
  state : PluginState
  enabled : Bool
  manifest : Option PluginManifest

/-- Bytes that were executed, and what came of it. -/
structure Execution (β : Type) where
  source : Bytes
  ran : Ran β

/-- The plugin, the target and the hash of its content. -/
abbrev CacheKey := Text × Text × Text

/-- The world, what the registry keeps, and what has been executed so far. -/
structure Shared (D β : Type) where
  world : World D β
  snapshot : Option (List (PluginRecord D))
  generation : ℕ
  activationCache : OrderedDict CacheKey β
  activationErrors : OrderedDict CacheKey Refusal
  executions : List (Execution β)

abbrev Activation (D β α : Type) := Routine (Shared D β) Fault α

variable {D β : Type}

/-! ## Settings -/

def readUserSettings : Activation D β PyJson := look fun s ↦ s.world.settings

def enabledFlag (name : Text) (settings : PyJson) : Bool :=
  match (settings.lookup "plugins".toList).getD (.obj []) with
  | .obj entries =>
    match (PyJson.lookup name (.obj entries)).getD (.obj []) with
    | .obj entry => ((PyJson.lookup "enabled".toList (.obj entry)).getD (.bool true)).truthy
    | _ => true
  | _ => true

def trustedPlugins (settings : PyJson) : PyJson :=
  match (settings.lookup "trusted_plugins".toList).getD (.obj []) with
  | .obj trusted => .obj trusted
  | _ => .obj []

def readTrustedPlugins : Activation D β PyJson := do
  let settings ← readUserSettings
  return trustedPlugins settings

/-- Compatible and enabled. The settings are read where the first holds. -/
def isLiveActive (env : Installation D) (manifest : PluginManifest) : Activation D β Bool := do
  if env.satisfies manifest.lionagi then
    let settings ← readUserSettings
    return enabledFlag manifest.name settings
  else
    return false

/-! ## Discovery -/

/-- The components of a relative path. -/
def pathParts (rel : Text) : List Text := (rel.splitOn '/').filter fun part ↦ part ≠ [] ∧ part ≠ ['.']

/-- `Path(rel).stem` -/
def stem (rel : Text) : Text :=
  let name := ((pathParts rel).getLast?).getD []
  let suffix := name.reverse.takeWhile (· ≠ '.')
  if suffix.length + 1 < name.length ∧ suffix ≠ [] then name.take (name.length - (suffix.length + 1)) else name

/-- `_BARE_NAME_RE.match`, whose `$` also stands before a last line break. -/
def isBareName (t : Text) : Bool :=
  let bare := fun name : Text ↦ !name.isEmpty && name.all fun c ↦ c.isAlphanum || c == '_' || c == '-'
  bare t || t.getLast? == some newline && bare t.dropLast

/-- Not empty, absolute or with a colon, and without a way up. -/
def isBundleRelative (env : Installation D) (rel : Text) : Bool :=
  !rel.all env.chars.isspace && !rel.contains ':' && rel.head? != some '/' && !(pathParts rel).contains ['.', '.']

/-- `_validate_bundle_relative` for every declared path, up to the first that raises. -/
def validateBundleRelative (env : Installation D) (dir : D) : List Text → Activation D β Bool
  | [] => return true
  | rel :: rest => do
    if isBundleRelative env rel then
      let inside ← look fun s ↦ s.world.inside dir rel
      if inside then validateBundleRelative env dir rest else return false
    else
      return false

/-- A bundle whose manifest was read. -/
structure Bundle (D : Type) where
  dir : D
  manifest : PluginManifest

def Bundle.declaredFiles (bundle : Bundle D) : List Text := bundle.manifest.collectDeclaredPaths

/-- `_scan_one`, with nothing where the manifest is not valid. -/
def scanOne (env : Installation D) (dir : D) : Activation D β (Option (Bundle D)) := do
  let parsed ← look fun s ↦ s.world.manifest dir
  match parsed with
  | none => return none
  | some manifest => do
    let valid ← validateBundleRelative env dir manifest.collectDeclaredPaths
    if valid && manifest.capabilities.agents.all fun rel ↦ isBareName (stem rel) then
      return some ⟨dir, manifest⟩
    else
      return none

def scanEach (env : Installation D) : List D → Activation D β (List (D × Option (Bundle D)))
  | [] => return []
  | dir :: rest => do
    let scanned ← scanOne env dir
    let others ← scanEach env rest
    return (dir, scanned) :: others

def discoverPlugins (env : Installation D) : Activation D β (List (D × Option (Bundle D))) := do
  let dirs ← look fun s ↦ s.world.bundles
  scanEach env dirs

/-! ## Hashes -/

def Installation.manifestHash (env : Installation D) (manifest : PluginManifest) : Text :=
  env.sha256 (encode manifest.canonical)

/-- `_sha256_file`: nothing where the file cannot be read. -/
def sha256File (env : Installation D) (dir : D) (rel : Text) : Activation D β (Option Text) :=
  look fun s ↦ .ok ((s.world.file dir rel).map env.sha256)

/-- The hash of each declared file, one after the other. -/
def targetHashes (env : Installation D) (dir : D) : List Text → Activation D β (List (Text × Option Text))
  | [] => return []
  | rel :: rest => do
    let hash ← sha256File env dir rel
    let hashes ← targetHashes env dir rest
    return (rel, hash) :: hashes

/-- The dictionary of the hashes; of a file that is declared twice the later one stands. -/
def lastHash (hashes : List (Text × Option Text)) (rel : Text) : Option (Option Text) :=
  (hashes.reverse.find? fun entry ↦ entry.1 == rel).map Prod.snd

def isHash : PyJson → Option Text → Bool
  | .str text, some hash => text == hash
  | .null, none => true
  | _, _ => false

/-- A recorded value equals the dictionary of the hashes. -/
def eqTargets (value : PyJson) (hashes : List (Text × Option Text)) : Bool :=
  match value with
  | .obj members =>
    (members.all fun member ↦ (lastHash hashes member.1).any fun hash ↦ isHash member.2 hash) &&
      hashes.all fun entry ↦ (lastHash hashes entry.1).any fun hash ↦
        ((PyJson.obj members).lookup entry.1).any fun found ↦ isHash found hash
  | _ => false

def recordMatches (env : Installation D) (record : PyJson) (manifest : PluginManifest)
    (hashes : List (Text × Option Text)) : Bool :=
  ((record.lookup "manifest".toList).any fun found ↦ isHash found (some (env.manifestHash manifest))) &&
    eqTargets ((record.lookup "targets".toList).getD (.obj [])) hashes

inductive TrustState where
  | untrusted
  | trusted
  | changed
  deriving DecidableEq

def trustState (env : Installation D) (bundle : Bundle D) : Activation D β TrustState := do
  let trusted ← readTrustedPlugins
  match trusted.lookup bundle.manifest.name with
  | none => return .untrusted
  | some .null => return .untrusted
  | some (.obj record) => do
    let hashes ← targetHashes env bundle.dir bundle.declaredFiles
    return if recordMatches env (.obj record) bundle.manifest hashes then .trusted else .changed
  | some _ => return .changed

end Lionagi.Plugins
