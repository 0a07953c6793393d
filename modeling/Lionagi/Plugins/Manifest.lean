import Lionagi.Library.PyJson

/-!
# Plugin manifests

A manifest is pure data: what a bundle calls itself, which installed versions it wants, and the files it
offers as tools, hooks, profiles, playbooks, providers and packs. The files that it declares, the targets that
it lets be activated and the text that its hash is taken of are read off it.
-/

namespace Lionagi.Plugins

abbrev Bytes := List UInt8

def encode (t : Text) : Bytes := t.flatMap String.utf8EncodeChar

/-! ## Targets -/

def newline : Char := Char.ofNat 10

def isIdentifier : Text → Bool
  | [] => false
  | c :: t => (c.isAlpha || c == '_') && t.all fun d ↦ d.isAlphanum || d == '_'

/-- `_CALLABLE_NAME_RE.match`, whose `$` also stands before a last line break. -/
def isCallableName (t : Text) : Bool :=
  isIdentifier t || t.getLast? == some newline && isIdentifier t.dropLast

/-- Split a bundle-relative `path.py:callable` reference into its path and the name of the callable. -/
def parseToolTarget (target : Text) : Option (Text × Text) :=
  match target.splitOn ':' with
  | [path, callable] => if path ≠ [] ∧ callable ≠ [] ∧ isCallableName callable then some (path, callable) else none
  | _ => none

/-! ## Capabilities -/

structure ToolCapability where
  name : Text
  target : Text
  valid : (parseToolTarget target).isSome = true

namespace ToolCapability

def path (tool : ToolCapability) : Text := ((parseToolTarget tool.target).get tool.valid).1

def callable (tool : ToolCapability) : Text := ((parseToolTarget tool.target).get tool.valid).2

end ToolCapability

structure HookCommand where
  type : Text
  command : List Text
  nonempty : command ≠ []

structure HookMatcher where
  matcher : Text
  hooks : List HookCommand

structure ProviderCapability where
  module : Text

structure Capabilities where
  tools : List ToolCapability
  hooksExternal : List (Text × List HookMatcher)
  agents : List Text
  playbooks : List Text
  providers : List ProviderCapability
  packs : List Text

structure PluginManifest where
  name : Text
  version : Text
  description : Text
  lionagi : Text
  capabilities : Capabilities

namespace PluginManifest

def toolNames (manifest : PluginManifest) : List Text := manifest.capabilities.tools.map ToolCapability.name

/-- Every bundle-relative file that the manifest declares. -/
def collectDeclaredPaths (manifest : PluginManifest) : List Text :=
  manifest.capabilities.tools.map ToolCapability.path ++
    (manifest.capabilities.hooksExternal.flatMap fun entry ↦ entry.2.flatMap fun matcher ↦
      matcher.hooks.map fun hook ↦ hook.command.head hook.nonempty) ++
    manifest.capabilities.agents ++ manifest.capabilities.playbooks ++
    manifest.capabilities.providers.map ProviderCapability.module ++ manifest.capabilities.packs

/-- The path and the attribute of each target that can be activated. Of two entries the later one stands. -/
def targetResolutionMap (manifest : PluginManifest) : List (Text × Text × Option Text) :=
  manifest.capabilities.tools.map (fun tool ↦ (tool.target, tool.path, some tool.callable)) ++
    manifest.capabilities.providers.map fun provider ↦ (provider.module, provider.module, none)

def resolve (manifest : PluginManifest) (target : Text) : Option (Text × Option Text) :=
  (manifest.targetResolutionMap.reverse.find? fun entry ↦ entry.1 == target).map Prod.snd

/-- The manifest declares the target, with this file and attribute. -/
def Declares (manifest : PluginManifest) (target modulePath : Text) (attr : Option Text) : Prop :=
  (target, modulePath, attr) ∈ manifest.targetResolutionMap

variable {manifest : PluginManifest} {modulePath : Text} {attr : Option Text}

theorem declares_of_resolve {target : Text} (h : manifest.resolve target = some (modulePath, attr)) :
    manifest.Declares target modulePath attr := by
  obtain ⟨⟨name, entry⟩, hfind, rfl⟩ := Option.map_eq_some_iff.1 h
  have hname : name = target := by simpa using List.find?_some hfind
  rw [← hname]
  exact List.mem_reverse.1 (List.mem_of_find?_eq_some hfind)

/-- What can be activated is declared, and so its file is hashed. -/
theorem Declares.mem_declaredPaths {target : Text} (h : manifest.Declares target modulePath attr) :
    modulePath ∈ manifest.collectDeclaredPaths := by
  rcases List.mem_append.1 h with hentry | hentry
  · obtain ⟨tool, htool, heq⟩ := List.mem_map.1 hentry
    cases heq
    simp only [collectDeclaredPaths, List.mem_append]
    exact .inl (.inl (.inl (.inl (.inl (List.mem_map_of_mem htool)))))
  · obtain ⟨provider, hprovider, heq⟩ := List.mem_map.1 hentry
    cases heq
    simp only [collectDeclaredPaths, List.mem_append]
    exact .inl (.inr (List.mem_map_of_mem hprovider))

/-! ## The canonical text -/

/-- `model_dump(mode="json")` -/
def modelDump (manifest : PluginManifest) : PyJson :=
  .obj
    [("name".toList, .str manifest.name),
      ("version".toList, .str manifest.version),
      ("description".toList, .str manifest.description),
      ("lionagi".toList, .str manifest.lionagi),
      ("capabilities".toList, .obj
        [("tools".toList, .arr (manifest.capabilities.tools.map fun tool ↦
            .obj [("name".toList, .str tool.name), ("target".toList, .str tool.target)])),
          ("hooks_external".toList, .obj (manifest.capabilities.hooksExternal.map fun entry ↦
            (entry.1, .arr (entry.2.map fun matcher ↦
              .obj [("matcher".toList, .str matcher.matcher),
                ("hooks".toList, .arr (matcher.hooks.map fun hook ↦
                  .obj [("type".toList, .str hook.type),
                    ("command".toList, .arr (hook.command.map PyJson.str))]))])))),
          ("agents".toList, .arr (manifest.capabilities.agents.map PyJson.str)),
          ("playbooks".toList, .arr (manifest.capabilities.playbooks.map PyJson.str)),
          ("providers".toList, .arr (manifest.capabilities.providers.map fun provider ↦
            .obj [("module".toList, .str provider.module)])),
          ("packs".toList, .arr (manifest.capabilities.packs.map PyJson.str))])]

/-- The canonical JSON text. A manifest holds no floats. -/
def canonical (manifest : PluginManifest) : Text :=
  PyJson.ensureAscii (PyJson.dumps (fun _ ↦ []) manifest.modelDump)

end PluginManifest

end Lionagi.Plugins
