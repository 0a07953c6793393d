import Lionagi.Plugins.Trust

/-!
# The plugin registry

The cached scan says which plugins there are. A target is activated in a call that scans the plugin's bundle
again, judges what it read, reads the bytes of the target once, compares their hash with the trust store as it
is by then, and executes these bytes, unless bytes with that hash were executed for the target before.
-/

namespace Lionagi.Plugins

open Interference
open Interference.Routine (look act update lift)

variable {D β : Type}

/-! ## The cached scan -/

def Bundle.record (bundle : Bundle D) (state : PluginState) (enabled : Bool) : PluginRecord D :=
  ⟨bundle.manifest.name, bundle.dir, state, enabled, some bundle.manifest⟩

/-- Compatibility, the enabled flag and trust of a plugin whose name no other bundle has. -/
def judge (env : Installation D) (settings : PyJson) (bundle : Bundle D) :
    Activation D β (PluginRecord D ⊕ Bundle D) := do
  if !env.satisfies bundle.manifest.lionagi then
    return .inl (bundle.record .incompatible (enabledFlag bundle.manifest.name settings))
  else if !enabledFlag bundle.manifest.name settings then
    return .inl (bundle.record .disabled false)
  else
    let trust ← trustState env bundle
    return match trust with
      | .untrusted => .inl (bundle.record .untrusted true)
      | .changed => .inl (bundle.record .changed true)
      | .trusted => .inr bundle

/-- The plugins among the candidates that declare a tool name which is declared twice. -/
def collided (candidates : List (Bundle D)) : List Text :=
  let names := candidates.flatMap fun bundle ↦ bundle.manifest.toolNames
  (candidates.filter fun bundle ↦ bundle.manifest.toolNames.any fun tool ↦ 1 < names.count tool).map
    fun bundle ↦ bundle.manifest.name

/-- The bundles in the order of the first of their name. -/
def groupByName (bundles : List (Bundle D)) : List (List (Bundle D)) :=
  (bundles.map fun bundle ↦ bundle.manifest.name).reverse.dedup.reverse.map fun name ↦
    bundles.filter fun bundle ↦ bundle.manifest.name = name

/-- Bundles of one name are judged only where there is one. -/
def judgeGroup (env : Installation D) (settings : PyJson) :
    List (Bundle D) → Activation D β (List (PluginRecord D ⊕ Bundle D))
  | [bundle] => do
    let verdict ← judge env settings bundle
    return [verdict]
  | group => pure (group.map fun bundle ↦
      .inl (bundle.record .collision (enabledFlag bundle.manifest.name settings)))

def judgeGroups (env : Installation D) (settings : PyJson) :
    List (List (Bundle D)) → Activation D β (List (PluginRecord D ⊕ Bundle D))
  | [] => return []
  | group :: rest => do
    let verdicts ← judgeGroup env settings group
    let others ← judgeGroups env settings rest
    return verdicts ++ others

def buildSnapshot (env : Installation D) : Activation D β (List (PluginRecord D)) := do
  let discovered ← discoverPlugins env
  let settings ← readUserSettings
  let invalid := (discovered.filter fun entry ↦ entry.2.isNone).map fun entry ↦
    (⟨env.dirName entry.1, entry.1, .invalid, false, none⟩ : PluginRecord D)
  let judged ← judgeGroups env settings (groupByName (discovered.filterMap Prod.snd))
  let candidates := judged.filterMap Sum.getRight?
  let refused := collided candidates
  return invalid ++ judged.filterMap Sum.getLeft? ++ candidates.map fun bundle ↦
    bundle.record (if bundle.manifest.name ∈ refused then .collision else .active) true

/-- `_ensure_loaded`. The list that is returned is read again, and may be gone by then. -/
def ensureLoaded (env : Installation D) : Activation D β (Option (List (PluginRecord D))) := do
  let loaded ← look fun s ↦ .ok s.snapshot.isSome
  if !loaded then
    let stillMissing ← look fun s ↦ .ok s.snapshot.isNone
    if stillMissing then
      let built ← buildSnapshot env
      update fun s ↦ { s with snapshot := some built, generation := s.generation + 1 }
  look fun s ↦ .ok s.snapshot

/-- Iterating over the records fails where there are none. -/
def iterate (records : Option (List (PluginRecord D))) : Except Fault (List (PluginRecord D)) :=
  records.elim (.error .typeError) .ok

/-- `PluginRegistry.get` -/
def getRecord (env : Installation D) (name : Text) : Activation D β (Option (PluginRecord D)) := do
  let loaded ← ensureLoaded env
  let records ← lift (iterate loaded)
  return records.find? fun record ↦ record.name = name

/-! ## Activation -/

def refuse {α : Type} (refusal : Refusal) : Activation D β α := throw (.activation refusal)

/-- Go on only where the condition holds. -/
def require (condition : Bool) (refusal : Refusal) : Activation D β PUnit :=
  if condition then return ⟨⟩ else refuse refusal

/-- The one record of the plugin, with all the records. -/
def requestedRecord (env : Installation D) (pluginName : Text) :
    Activation D β (PluginRecord D × List (PluginRecord D)) := do
  let loaded ← ensureLoaded env
  let record ← getRecord env pluginName
  match record with
  | none => refuse .notActive
  | some record => do
    let records ← lift (iterate loaded)
    require (records.countP (fun item ↦ item.name = pluginName) = 1) .notActive
    return (record, records)

/-- The bundle as scanned in this call, once it is found active and trusted. -/
def eligibleBundle (env : Installation D) (pluginName : Text) (record : PluginRecord D) :
    Activation D β (Bundle D) := do
  let fresh ← scanOne env record.bundleDir
  match fresh with
  | none => refuse .noLongerTrusted
  | some bundle => do
    let live ← isLiveActive env bundle.manifest
    require live .notActive
    require (bundle.manifest.name = pluginName) .noLongerTrusted
    let trust ← trustState env bundle
    require (trust = .trusted) .noLongerTrusted
    require bundle.manifest.toolNames.Nodup .notActive
    return bundle

/-- The tools of the other plugins that are live by now, each with its owner. -/
def otherToolOwners (env : Installation D) (pluginName : Text) :
    List (PluginRecord D) → Activation D β (List (Text × Text))
  | [] => return []
  | other :: rest => do
    match other.manifest with
    | none => otherToolOwners env pluginName rest
    | some manifest =>
      if other.name = pluginName ∨ other.state ≠ .active ∧ other.state ≠ .collision then
        otherToolOwners env pluginName rest
      else
        let live ← isLiveActive env manifest
        let owned ← otherToolOwners env pluginName rest
        return if live then manifest.toolNames.map (fun tool ↦ (tool, other.name)) ++ owned else owned

/-- The other owners of a tool, each once. -/
def collidingOwners (owned : List (Text × Text)) (tool : Text) : List Text :=
  (((owned.filter fun entry ↦ entry.1 = tool).map Prod.snd).reverse.dedup).reverse

def checkCollisions (pluginName : Text) (owned : List (Text × Text)) (toolNames : List Text) :
    Activation D β PUnit :=
  match toolNames.find? fun tool ↦ !(collidingOwners owned tool).isEmpty with
  | none => return ⟨⟩
  | some tool => refuse (.toolCollision tool (pluginName :: collidingOwners owned tool))

/-- `trusted_entry.get("targets", {}).get(module_path)`; nothing where that is null. -/
def recordedHash (trusted : PyJson) (pluginName modulePath : Text) : Except Fault (Option PyJson) :=
  match trusted.lookup pluginName with
  | some (.obj record) =>
    match (PyJson.lookup "targets".toList (.obj record)).getD (.obj []) with
    | .obj targets => .ok (PyJson.lookup modulePath (.obj targets))
    | _ => .error .attributeError
  | _ => .ok none

/-- Read the bytes of the target once and compare them with the trust store as it is then. -/
def readAndVerifyTargetBytes (env : Installation D) (bundleDir : D) (modulePath pluginName : Text) :
    Activation D β Bytes := do
  let file ← look fun s ↦ .ok (s.world.file bundleDir modulePath)
  match file with
  | none => throw .fileNotFound
  | some source => do
    let trusted ← readTrustedPlugins
    let recorded ← lift (recordedHash trusted pluginName modulePath)
    if recorded.any fun found ↦ isHash found (some (env.sha256 source)) then
      return source
    else
      throw .permission

/-- `except (FileNotFoundError, PermissionError)` -/
def asRefusal : Fault → Fault
  | .fileNotFound => .activation .notFound
  | .permission => .activation .mismatch
  | fault => fault

/-- `_exec_bundle_module` and the attribute that is asked for. -/
def execute (source : Bytes) : Activation D β (Ran β) :=
  act (fun s ↦ { s with executions := ⟨source, s.world.run source⟩ :: s.executions })
    fun s ↦ .ok (s.world.run source)

def rememberError (key : CacheKey) (refusal : Refusal) (s : Shared D β) : Shared D β :=
  { s with activationErrors := s.activationErrors.set key refusal }

def rememberObject (key : CacheKey) (object : β) (s : Shared D β) : Shared D β :=
  { s with activationCache := s.activationCache.set key object }

/-- An object is cached and returned; without one the failure is cached and raised. -/
def remember (key : CacheKey) : Option β → Activation D β β
  | none => do
    update (rememberError key .raised)
    refuse .raised
  | some object => do
    update (rememberObject key object)
    return object

/-- What was executed before is remembered under its hash; otherwise the bytes are executed. -/
def activateBytes (key : CacheKey) (attr : Option Text) (source : Bytes) : Activation D β β := do
  let failed ← look fun s ↦ .ok (s.activationErrors.get? key).isSome
  if failed then
    let message ← look fun s ↦ (s.activationErrors.get? key).elim (.error .keyError) .ok
    refuse message
  else
    let cached ← look fun s ↦ .ok (s.activationCache.get? key).isSome
    if cached then
      look fun s ↦ (s.activationCache.get? key).elim (.error .keyError) .ok
    else
      let ran ← execute source
      match ran with
      | .baseException => throw .other
      | ran => remember key (ran.object? attr)

/-- `PluginRegistry.activate_target` -/
def activateTarget (env : Installation D) (pluginName target : Text) : Activation D β β := do
  let (record, records) ← requestedRecord env pluginName
  let bundle ← eligibleBundle env pluginName record
  let owned ← otherToolOwners env pluginName records
  checkCollisions pluginName owned bundle.manifest.toolNames
  match bundle.manifest.resolve target with
  | none => refuse .undeclared
  | some (modulePath, attr) => do
    let source ← tryCatch (readAndVerifyTargetBytes env bundle.dir modulePath pluginName)
      fun fault ↦ throw (asRefusal fault)
    activateBytes (pluginName, target, env.sha256 source) attr source

/-! ## Everything else -/

/-- `PluginRegistry.reset` -/
def reset (s : Shared D β) : Shared D β :=
  { s with snapshot := none, activationCache := .empty, activationErrors := .empty }

/-- Anything outside of the process is edited, or the registry is reset. -/
inductive Outside : Shared D β → Shared D β → Prop where
  | edit (s : Shared D β) (world : World D β) : Outside s { s with world := world }
  | reset (s : Shared D β) : Outside s (reset s)

/-- The process has just started. -/
def Shared.fresh (world : World D β) : Shared D β := ⟨world, none, 0, .empty, .empty, []⟩

end Lionagi.Plugins
