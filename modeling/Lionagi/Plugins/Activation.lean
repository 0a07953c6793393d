import Lionagi.Plugins.Registry

/-!
# What an activation has approved

Each part of a call tells what it has seen where it lets the call go on. Together they say that bytes are
executed, and an object is returned, only after the manifest was read again, found to declare the target, and
the store held the hashes of the manifest, of every declared file and of the bytes themselves, each at some
moment of the call.
-/

namespace Lionagi.Plugins

open Interference
open Interference.Routine (look act update lift)

variable {D β : Type} {past : History (Shared D β)}

/-! ## What the parts have seen -/

theorem finds_readUserSettings : Finds (fun past result ↦ ∀ settings, result = .ok settings →
    ∃ s, Saw past s ∧ s.world.settings = .ok settings) past (readUserSettings : Activation D β PyJson) :=
  finds_look fun s _ h ↦ ⟨s, saw_head s s past, h⟩

/-- The trust store is that of the settings at some moment. -/
theorem finds_readTrustedPlugins : Finds (fun past result ↦ ∀ trusted, result = .ok trusted →
    ∃ s settings, Saw past s ∧ s.world.settings = .ok settings ∧ trusted = trustedPlugins settings) past
      (readTrustedPlugins : Activation D β PyJson) :=
  Safe.bind finds_readUserSettings
    (fun _ settings _ hsettings trusted heq ↦ by
      obtain ⟨s, hsaw, hs⟩ := hsettings settings rfl
      cases heq
      exact ⟨s, settings, hsaw, hs, rfl⟩)
    fun _ _ _ _ _ heq ↦ by cases heq

/-- At some moment the enabled flag of the plugin was set. -/
def SawEnabled (past : History (Shared D β)) (name : Text) : Prop :=
  ∃ s settings, Saw past s ∧ s.world.settings = .ok settings ∧ enabledFlag name settings = true

variable (env : Installation D)

theorem finds_isLiveActive (manifest : PluginManifest) :
    Finds (fun past result ↦ result = .ok true →
      env.satisfies manifest.lionagi = true ∧ SawEnabled past manifest.name) past
        (isLiveActive env manifest : Activation D β Bool) := by
  unfold isLiveActive
  split
  · next hsatisfies =>
    refine Safe.bind finds_readUserSettings (fun past' settings _ hsettings heq ↦ ?_)
      fun _ _ _ _ heq ↦ by cases heq
    obtain ⟨s, hsaw, hs⟩ := hsettings settings rfl
    exact ⟨hsatisfies, s, settings, hsaw, hs, Except.ok.inj heq⟩
  · exact safe_pure fun heq ↦ by cases heq

theorem finds_validateBundleRelative (dir : D) (rels : List Text) :
    Finds (fun _ result ↦ result = .ok true → ∀ rel ∈ rels, isBundleRelative env rel = true) past
      (validateBundleRelative env dir rels : Activation D β Bool) := by
  induction rels generalizing past with
  | nil => exact fun _ rel hrel ↦ absurd hrel List.not_mem_nil
  | cons rel rest ih =>
    unfold validateBundleRelative
    split
    · next hrel =>
      refine Safe.bind (reads_look _ past) (fun past' inside _ _ ↦ ?_) fun _ _ _ _ heq ↦ by cases heq
      split
      · exact Safe.weaken ih fun _ _ _ hrest heq rel' hmem ↦ by
          rcases List.mem_cons.1 hmem with rfl | hmem
          · exact hrel
          · exact hrest heq rel' hmem
      · exact safe_pure fun heq ↦ by cases heq
    · exact safe_pure fun heq ↦ by cases heq

/-- A bundle that was scanned was read at some moment, and declares only paths inside of it. -/
structure Scanned (env : Installation D) (past : History (Shared D β)) (dir : D) (bundle : Bundle D) :
    Prop where
  place : bundle.dir = dir
  reread : ∃ s, Saw past s ∧ s.world.manifest dir = .ok (some bundle.manifest)
  relative : ∀ rel ∈ bundle.declaredFiles, isBundleRelative env rel = true

theorem finds_scanOne (dir : D) :
    Finds (fun past result ↦ ∀ bundle, result = .ok (some bundle) → Scanned env past dir bundle) past
      (scanOne env dir : Activation D β (Option (Bundle D))) := by
  have hread : Finds (fun past result ↦ ∀ parsed, result = .ok parsed →
      ∃ s, Saw past s ∧ s.world.manifest dir = .ok parsed) past
        (look fun s ↦ s.world.manifest dir : Activation D β (Option PluginManifest)) :=
    finds_look fun s _ h ↦ ⟨s, saw_head s s past, h⟩
  refine Safe.bind hread (fun past₁ parsed _ hparsed ↦ ?_) fun _ _ _ _ _ heq ↦ by cases heq
  cases parsed with
  | none => exact safe_pure fun bundle heq ↦ by cases heq
  | some manifest =>
    refine Safe.bind (finds_validateBundleRelative env dir manifest.collectDeclaredPaths)
      (fun past₂ valid hlonger hvalid ↦ ?_) fun _ _ _ _ _ heq ↦ by cases heq
    split
    · next hchecked =>
      intro bundle heq
      cases heq
      rw [Bool.and_eq_true] at hchecked
      obtain ⟨s, hsaw, hs⟩ := hparsed (some manifest) rfl
      exact ⟨rfl, ⟨s, hsaw.mono hlonger, hs⟩, hvalid (by rw [hchecked.1])⟩
    · exact safe_pure fun bundle heq ↦ by cases heq

/-- Each hash was taken of the file at some moment. -/
theorem finds_targetHashes (dir : D) (rels : List Text) :
    Finds (fun past result ↦ ∀ hashes, result = .ok hashes → hashes.map Prod.fst = rels ∧
      ∀ entry ∈ hashes, ∃ s, Saw past s ∧ entry.2 = (s.world.file dir entry.1).map env.sha256) past
        (targetHashes env dir rels : Activation D β (List (Text × Option Text))) := by
  induction rels generalizing past with
  | nil =>
    intro hashes heq
    cases heq
    exact ⟨rfl, fun entry hentry ↦ absurd hentry List.not_mem_nil⟩
  | cons rel rest ih =>
    have hread : Finds (fun past result ↦ ∀ hash, result = .ok hash →
        ∃ s, Saw past s ∧ hash = (s.world.file dir rel).map env.sha256) past
          (sha256File env dir rel : Activation D β (Option Text)) :=
      finds_look fun s hash h ↦ ⟨s, saw_head s s past, (Except.ok.inj h).symm⟩
    refine Safe.bind hread (fun past₁ hash _ hhash ↦ ?_) fun _ _ _ _ _ heq ↦ by cases heq
    refine Safe.bind ih (fun past₂ others hlonger hothers ↦ ?_) fun _ _ _ _ _ heq ↦ by cases heq
    intro hashes heq
    cases heq
    obtain ⟨hnames, hseen⟩ := hothers others rfl
    obtain ⟨s, hsaw, hs⟩ := hhash hash rfl
    refine ⟨congrArg (rel :: ·) hnames, fun entry hentry ↦ ?_⟩
    rcases List.mem_cons.1 hentry with rfl | hentry
    · exact ⟨s, hsaw.mono hlonger, hs⟩
    · exact hseen entry hentry

/-! ## Trust -/

/-- The files of a record, by their path. -/
def recordedTargets (record : PyJson) : PyJson := (record.lookup "targets".toList).getD (.obj [])

/-- The record holds the hash of the manifest, and for each declared file what `same` accepts for the file as
it was at some moment. -/
structure Matched (env : Installation D) (same : PyJson → Option Bytes → Prop) (past : History (Shared D β))
    (dir : D) (manifest : PluginManifest) (record : PyJson) : Prop where
  pinned : record.lookup "manifest".toList = some (.str (env.manifestHash manifest))
  files : ∀ rel ∈ manifest.collectDeclaredPaths, ∃ value s, (recordedTargets record).lookup rel = some value ∧
    Saw past s ∧ same value (s.world.file dir rel)

/-- At some moment the store held a record of the plugin that matched. -/
def SawTrusted (env : Installation D) (same : PyJson → Option Bytes → Prop) (past : History (Shared D β))
    (dir : D) (manifest : PluginManifest) : Prop :=
  ∃ s settings record, Saw past s ∧ s.world.settings = .ok settings ∧
    (trustedPlugins settings).lookup manifest.name = some record ∧ Matched env same past dir manifest record

/-- What the comparison of the dictionaries accepts: the hash of the file, or null where there is no file. -/
def Compared (env : Installation D) (value : PyJson) (file : Option Bytes) : Prop :=
  isHash value (file.map env.sha256) = true

variable {record value : PyJson} {hash modulePath pluginName rel target : Text}

theorem isHash_some_iff : isHash value (some hash) = true ↔ value = .str hash := by
  cases value <;> simp [isHash]

variable {hashes : List (Text × Option Text)}

theorem lastHash_mem {hash : Option Text} (h : lastHash hashes rel = some hash) : (rel, hash) ∈ hashes := by
  obtain ⟨⟨name, found⟩, hfind, rfl⟩ := Option.map_eq_some_iff.1 h
  have hname : name = rel := by simpa using List.find?_some hfind
  rw [← hname]
  exact List.mem_reverse.1 (List.mem_of_find?_eq_some hfind)

/-- Equal dictionaries hold equal values for every file that was hashed. -/
theorem eqTargets_files (h : eqTargets value hashes = true) (hrel : rel ∈ hashes.map Prod.fst) :
    ∃ found hash, value.lookup rel = some found ∧ (rel, hash) ∈ hashes ∧ isHash found hash = true := by
  obtain ⟨entry, hentry, rfl⟩ := List.mem_map.1 hrel
  cases value with
  | obj members =>
    rw [eqTargets, Bool.and_eq_true] at h
    have hsame := List.all_eq_true.1 h.2 entry hentry
    obtain ⟨hash, hlast, hsame⟩ := (Option.any_eq_true _ _).1 hsame
    obtain ⟨found, hfound, hsame⟩ := (Option.any_eq_true _ _).1 hsame
    exact ⟨found, hash, hfound, lastHash_mem hlast, hsame⟩
  | _ => exact absurd h Bool.false_ne_true

variable {dir : D} {manifest : PluginManifest}

theorem matched_of_recordMatches {env : Installation D} (h : recordMatches env record manifest hashes = true)
    (hnames : hashes.map Prod.fst = manifest.collectDeclaredPaths)
    (hseen : ∀ entry ∈ hashes, ∃ s, Saw past s ∧ entry.2 = (s.world.file dir entry.1).map env.sha256) :
    Matched env (Compared env) past dir manifest record := by
  rw [recordMatches, Bool.and_eq_true] at h
  obtain ⟨found, hfound, hhash⟩ := (Option.any_eq_true _ _).1 h.1
  refine ⟨?_, fun rel hrel ↦ ?_⟩
  · rw [hfound, isHash_some_iff.1 hhash]
  · obtain ⟨value, hash, hvalue, hmem, hsame⟩ := eqTargets_files h.2 (hnames ▸ hrel)
    obtain ⟨s, hsaw, hs⟩ := hseen (rel, hash) hmem
    refine ⟨value, s, hvalue, hsaw, ?_⟩
    rw [Compared, ← hs]
    exact hsame

variable {same : PyJson → Option Bytes → Prop} {past' : History (Shared D β)}

theorem Matched.mono {env : Installation D} (h : Matched env same past dir manifest record) (hpast : past <:+ past') :
    Matched env same past' dir manifest record := by
  refine ⟨h.pinned, fun rel hrel ↦ ?_⟩
  obtain ⟨value, s, hvalue, hsaw, hsame⟩ := h.files rel hrel
  exact ⟨value, s, hvalue, hsaw.mono hpast, hsame⟩

theorem finds_trustState (bundle : Bundle D) :
    Finds (fun past result ↦ result = .ok .trusted →
      SawTrusted env (Compared env) past bundle.dir bundle.manifest) past
        (trustState env bundle : Activation D β TrustState) := by
  refine Safe.bind finds_readTrustedPlugins (fun past₁ trusted _ htrusted ↦ ?_) fun _ _ _ _ heq ↦ by cases heq
  split
  · exact safe_pure fun heq ↦ by cases heq
  · exact safe_pure fun heq ↦ by cases heq
  · next record hrecord =>
    refine Safe.bind (finds_targetHashes env bundle.dir bundle.declaredFiles)
      (fun past₂ hashes hlonger hhashes ↦ ?_) fun _ _ _ _ heq ↦ by cases heq
    intro heq
    obtain ⟨s, settings, hsaw, hs, rfl⟩ := htrusted trusted rfl
    obtain ⟨hnames, hseen⟩ := hhashes hashes rfl
    have hmatches : recordMatches env (.obj record) bundle.manifest hashes = true := by
      by_contra hnot
      rw [Bool.not_eq_true] at hnot
      rw [hnot] at heq
      cases heq
    exact ⟨s, settings, .obj record, hsaw.mono hlonger, hs, hrecord,
      matched_of_recordMatches hmatches hnames hseen⟩
  · exact safe_pure fun heq ↦ by cases heq

/-! ## Approval -/

/-- The attribute that a target names. -/
def attrOf (target : Text) : Option Text := (parseToolTarget target).map Prod.snd

/-- At some moment the store held this hash for the file of the plugin. -/
def SawRecorded (past : History (Shared D β)) (pluginName modulePath hash : Text) : Prop :=
  ∃ s settings, Saw past s ∧ s.world.settings = .ok settings ∧
    recordedHash (trustedPlugins settings) pluginName modulePath = .ok (some (.str hash))

/-- What a call has seen when bytes with this hash may run as the target: the bundle's manifest has the name,
declares the target, is compatible and enabled; the record of the plugin matched it; and the file was read and
its hash found in the store. -/
structure Approved (env : Installation D) (same : PyJson → Option Bytes → Prop) (pluginName target hash : Text)
    (past : History (Shared D β)) (dir : D) (manifest : PluginManifest) (modulePath : Text) : Prop where
  reread : ∃ s, Saw past s ∧ s.world.manifest dir = .ok (some manifest)
  name : manifest.name = pluginName
  declares : manifest.Declares target modulePath (attrOf target)
  compatible : env.satisfies manifest.lionagi = true
  enabled : SawEnabled past pluginName
  trusted : SawTrusted env same past dir manifest
  read : ∃ s source, Saw past s ∧ s.world.file dir modulePath = some source ∧ env.sha256 source = hash
  recorded : SawRecorded past pluginName modulePath hash

theorem SawEnabled.mono {name : Text} (h : SawEnabled past name) (hpast : past <:+ past') : SawEnabled past' name := by
  obtain ⟨s, settings, hsaw, hs⟩ := h
  exact ⟨s, settings, hsaw.mono hpast, hs⟩

theorem SawTrusted.mono {env : Installation D} (h : SawTrusted env same past dir manifest) (hpast : past <:+ past') :
    SawTrusted env same past' dir manifest := by
  obtain ⟨s, settings, record, hsaw, hs, hrecord, hmatched⟩ := h
  exact ⟨s, settings, record, hsaw.mono hpast, hs, hrecord, hmatched.mono hpast⟩

theorem Approved.mono {env : Installation D} (h : Approved env same pluginName target hash past dir manifest modulePath)
    (hpast : past <:+ past') : Approved env same pluginName target hash past' dir manifest modulePath := by
  obtain ⟨s, hsaw, hs⟩ := h.reread
  obtain ⟨s₁, source, hsaw₁, hfile⟩ := h.read
  obtain ⟨s₂, settings, hsaw₂, hrecorded⟩ := h.recorded
  exact ⟨⟨s, hsaw.mono hpast, hs⟩, h.name, h.declares, h.compatible, h.enabled.mono hpast,
    h.trusted.mono hpast, ⟨s₁, source, hsaw₁.mono hpast, hfile⟩, s₂, settings, hsaw₂.mono hpast, hrecorded⟩

/-! ### The checks before the bytes are read -/

variable {α : Type}

theorem safe_require {I : Shared D β → Prop} {R : Shared D β → Shared D β → Prop}
    {G : History (Shared D β) → Shared D β → Shared D β → Prop} {Q : History (Shared D β) → Except Fault α → Prop}
    {condition : Bool} {refusal : Refusal} {k : PUnit → Activation D β α}
    (hok : condition = true → Safe I R G Q past (k ⟨⟩)) (herror : Q past (.error (.activation refusal))) :
    Safe I R G Q past (require condition refusal >>= k) := by
  cases condition with
  | true => exact hok rfl
  | false => exact herror

/-- A bundle that passed the checks of a call. -/
structure Eligible (env : Installation D) (pluginName : Text) (dir : D) (past : History (Shared D β))
    (bundle : Bundle D) : Prop where
  scanned : Scanned env past dir bundle
  name : bundle.manifest.name = pluginName
  compatible : env.satisfies bundle.manifest.lionagi = true
  enabled : SawEnabled past pluginName
  trusted : SawTrusted env (Compared env) past bundle.dir bundle.manifest

variable {bundle : Bundle D}

theorem Scanned.mono {env : Installation D} (h : Scanned env past dir bundle) (hpast : past <:+ past') :
    Scanned env past' dir bundle := by
  obtain ⟨s, hsaw, hs⟩ := h.reread
  exact ⟨h.place, ⟨s, hsaw.mono hpast, hs⟩, h.relative⟩

theorem Eligible.mono {env : Installation D} (h : Eligible env pluginName dir past bundle) (hpast : past <:+ past') :
    Eligible env pluginName dir past' bundle :=
  ⟨h.scanned.mono hpast, h.name, h.compatible, h.enabled.mono hpast, h.trusted.mono hpast⟩

theorem finds_eligibleBundle (pluginName : Text) (record : PluginRecord D) :
    Finds (fun past result ↦ ∀ bundle, result = .ok bundle →
      Eligible env pluginName record.bundleDir past bundle) past
        (eligibleBundle env pluginName record : Activation D β (Bundle D)) := by
  refine Safe.bind (finds_scanOne env record.bundleDir) (fun past₁ fresh _ hfresh ↦ ?_)
    fun _ _ _ _ _ heq ↦ by cases heq
  cases fresh with
  | none => exact safe_throw fun bundle heq ↦ by cases heq
  | some bundle =>
    have hscanned := hfresh bundle rfl
    refine Safe.bind (finds_isLiveActive env bundle.manifest) (fun past₂ live h₂ hlive ↦ ?_)
      fun _ _ _ _ _ heq ↦ by cases heq
    refine safe_require (fun hlive' ↦ ?_) fun _ heq ↦ by cases heq
    obtain ⟨hcompatible, henabled⟩ := hlive (by rw [hlive'])
    refine safe_require (fun hname ↦ ?_) fun _ heq ↦ by cases heq
    have hname := of_decide_eq_true hname
    refine Safe.bind (finds_trustState env bundle) (fun past₃ trust h₃ htrust ↦ ?_)
      fun _ _ _ _ _ heq ↦ by cases heq
    refine safe_require (fun htrusted ↦ ?_) fun _ heq ↦ by cases heq
    have htrusted := htrust (by rw [of_decide_eq_true htrusted])
    refine safe_require (fun _ ↦ ?_) fun _ heq ↦ by cases heq
    intro bundle' heq
    cases heq
    exact ⟨hscanned.mono (h₂.trans h₃), hname, hcompatible, (hname ▸ henabled).mono h₃, htrusted⟩

theorem reads_otherToolOwners (pluginName : Text) (records : List (PluginRecord D)) :
    Reads (otherToolOwners env pluginName records : Activation D β (List (Text × Text))) := by
  induction records with
  | nil => exact reads_pure []
  | cons other rest ih =>
    unfold otherToolOwners
    split
    · exact ih
    · split
      · exact ih
      · exact (Finds.reads fun _ ↦ finds_isLiveActive env _).bind fun live ↦ ih.bind fun owned ↦ reads_pure _

/-- The file was read, and by then the store held its hash. -/
theorem finds_readAndVerify (dir : D) (modulePath pluginName : Text) :
    Finds (fun past result ↦ ∀ source, result = .ok source →
      (∃ s, Saw past s ∧ s.world.file dir modulePath = some source) ∧
        SawRecorded past pluginName modulePath (env.sha256 source)) past
          (readAndVerifyTargetBytes env dir modulePath pluginName : Activation D β Bytes) := by
  have hread : Finds (fun past result ↦ ∀ file, result = .ok file →
      ∃ s, Saw past s ∧ s.world.file dir modulePath = file) past
        (look fun s ↦ .ok (s.world.file dir modulePath) : Activation D β (Option Bytes)) :=
    finds_look fun s _ h ↦ ⟨s, saw_head s s past, Except.ok.inj h⟩
  refine Safe.bind hread (fun past₁ file _ hfile ↦ ?_) fun _ _ _ _ _ heq ↦ by cases heq
  cases file with
  | none => exact safe_throw fun source heq ↦ by cases heq
  | some source =>
    obtain ⟨s, hsaw, hs⟩ := hfile (some source) rfl
    refine Safe.bind finds_readTrustedPlugins (fun past₂ trusted h₂ htrusted ↦ ?_) fun _ _ _ _ _ heq ↦ by cases heq
    obtain ⟨s', settings, hsaw', hs', rfl⟩ := htrusted trusted rfl
    cases hrecorded : recordedHash (trustedPlugins settings) pluginName modulePath with
    | error fault => exact fun _ heq ↦ by cases heq
    | ok recorded =>
      change Finds _ past₂ (if recorded.any fun found ↦ isHash found (some (env.sha256 source)) then
        pure source else throw Fault.permission)
      split
      · next hany =>
        obtain ⟨found, rfl, hfound⟩ := (Option.any_eq_true _ _).1 hany
        rw [isHash_some_iff.1 hfound] at hrecorded
        intro source' heq
        cases heq
        exact ⟨⟨s, hsaw.mono h₂, hs⟩, s', settings, hsaw', hs', hrecorded⟩
      · exact safe_throw fun _ heq ↦ by cases heq

/-- A path without a colon is no tool target, so what a target names does not depend on the manifest. -/
theorem attr_of_declares {env : Installation D} {attr : Option Text} (h : manifest.Declares target modulePath attr)
    (hrelative : ∀ rel ∈ manifest.collectDeclaredPaths, isBundleRelative env rel = true) : attr = attrOf target := by
  have hmem := h.mem_declaredPaths
  rcases List.mem_append.1 h with hentry | hentry
  · obtain ⟨tool, -, heq⟩ := List.mem_map.1 hentry
    cases heq
    rw [attrOf, ← Option.some_get tool.valid]
    rfl
  · obtain ⟨provider, -, heq⟩ := List.mem_map.1 hentry
    cases heq
    have hcolon : ':' ∉ provider.module := by
      have hchecked := hrelative _ hmem
      simp only [isBundleRelative, Bool.and_eq_true, Bool.not_eq_true'] at hchecked
      exact fun hin ↦ by simp [hin] at hchecked
    rw [attrOf, parseToolTarget, List.splitOn_eq_singleton hcolon]
    rfl

/-! ### Executing and remembering -/

/-- Every cached object came of executing bytes with the hash of its key. -/
def Remembered (env : Installation D) (s : Shared D β) : Prop :=
  ∀ key object, s.activationCache.get? key = some object → ∃ x ∈ s.executions,
    env.sha256 x.source = key.2.2 ∧ x.ran.object? (attrOf key.2.1) = some object

/-- Executions are never forgotten. -/
def Logs (s t : Shared D β) : Prop := s.executions ⊆ t.executions

/-- An access edits nothing, and executes nothing or bytes that the call has seen approved. -/
structure Executes (env : Installation D) (same : PyJson → Option Bytes → Prop) (pluginName target : Text)
    (past : History (Shared D β)) (s t : Shared D β) : Prop where
  world : t.world = s.world
  executed : t.executions = s.executions ∨ ∃ x dir manifest modulePath, t.executions = x :: s.executions ∧
    Approved env same pluginName target (env.sha256 x.source) past dir manifest modulePath

/-- The object came of an execution of bytes that the call has seen approved. -/
def Returns (env : Installation D) (same : PyJson → Option Bytes → Prop) (pluginName target : Text)
    (past : History (Shared D β)) (object : β) : Prop :=
  ∃ s t x dir manifest modulePath, (s, t) ∈ past ∧ x ∈ t.executions ∧
    x.ran.object? (attrOf target) = some object ∧
    Approved env same pluginName target (env.sha256 x.source) past dir manifest modulePath

section Call

variable {env : Installation D} {same : PyJson → Option Bytes → Prop} {pluginName target : Text}

/-- What is proved of a routine that is part of a call. -/
abbrev Part {α : Type} (env : Installation D) (same : PyJson → Option Bytes → Prop) (pluginName target : Text)
    (Q : History (Shared D β) → Except Fault α → Prop) :=
  Safe (Remembered env) Logs (Executes (β := β) env same pluginName target) Q

theorem part_of_finds {Q : History (Shared D β) → Except Fault α → Prop} {p : Activation D β α} (h : Finds Q past p) :
    Part env same pluginName target Q past p :=
  h.safe (fun _ ↦ List.Subset.refl _) fun _ _ _ _ ↦ ⟨rfl, .inl rfl⟩

/-- A change of the registry that leaves the log and what is cached. -/
theorem part_update {f : Shared D β → Shared D β} (hworld : ∀ s, (f s).world = s.world)
    (hcache : ∀ s, (f s).activationCache = s.activationCache) (hlog : ∀ s, (f s).executions = s.executions) :
    Part env same pluginName target (fun _ _ ↦ True) past (update f) :=
  safe_update fun s hs _ ↦ by
    refine ⟨fun key object hobject ↦ ?_, ?_, ⟨hworld s, .inl (hlog s)⟩, trivial⟩
    · rw [hcache] at hobject
      rw [hlog]
      exact hs key object hobject
    · rw [Logs, hlog]
      exact List.Subset.refl _

theorem reads_scanEach (env : Installation D) (dirs : List D) :
    Reads (scanEach env dirs : Activation D β (List (D × Option (Bundle D)))) := by
  induction dirs with
  | nil => exact reads_pure []
  | cons dir rest ih =>
    exact (Finds.reads fun _ ↦ finds_scanOne env dir).bind fun scanned ↦ ih.bind fun others ↦ reads_pure _

theorem reads_judge (env : Installation D) (settings : PyJson) (bundle : Bundle D) :
    Reads (judge env settings bundle : Activation D β (PluginRecord D ⊕ Bundle D)) := by
  unfold judge
  split
  · exact reads_pure _
  · split
    · exact reads_pure _
    · exact (Finds.reads fun _ ↦ finds_trustState env bundle).bind fun trust ↦ reads_pure _

theorem reads_judgeGroup (env : Installation D) (settings : PyJson) (group : List (Bundle D)) :
    Reads (judgeGroup env settings group : Activation D β (List (PluginRecord D ⊕ Bundle D))) := by
  unfold judgeGroup
  split
  · exact (reads_judge env settings _).bind fun verdict ↦ reads_pure _
  · exact reads_pure _

theorem reads_judgeGroups (env : Installation D) (settings : PyJson) (groups : List (List (Bundle D))) :
    Reads (judgeGroups env settings groups : Activation D β (List (PluginRecord D ⊕ Bundle D))) := by
  induction groups with
  | nil => exact reads_pure []
  | cons group rest ih =>
    exact (reads_judgeGroup env settings group).bind fun verdicts ↦ ih.bind fun others ↦ reads_pure _

theorem reads_buildSnapshot (env : Installation D) :
    Reads (buildSnapshot env : Activation D β (List (PluginRecord D))) :=
  ((reads_look _).bind (reads_scanEach env)).bind fun _ ↦
    (Finds.reads fun _ ↦ finds_readUserSettings).bind fun settings ↦
    (reads_judgeGroups env settings _).bind fun _ ↦ reads_pure _

theorem part_reads {p : Activation D β α} (h : Reads p) : Part env same pluginName target (fun _ _ ↦ True) past p :=
  part_of_finds (h past)

/-- A part of which nothing is known afterwards. -/
theorem Part.then {α' : Type} {Q : History (Shared D β) → Except Fault α' → Prop} {p : Activation D β α}
    {k : α → Activation D β α'} (h : Part env same pluginName target (fun _ _ ↦ True) past p)
    (hok : ∀ past' a, past <:+ past' → Part env same pluginName target Q past' (k a))
    (herror : ∀ past' e, Q past' (.error e)) : Part env same pluginName target Q past (p >>= k) :=
  Safe.bind h (fun past' a hpast _ ↦ hok past' a hpast) fun past' e _ _ ↦ herror past' e

theorem part_ensureLoaded : Part env same pluginName target (fun _ _ ↦ True) past
    (ensureLoaded env : Activation D β (Option (List (PluginRecord D)))) := by
  have hend : ∀ past', Part env same pluginName target (fun _ _ ↦ True) past'
      (look fun s ↦ .ok s.snapshot : Activation D β (Option (List (PluginRecord D)))) :=
    fun past' ↦ part_reads (reads_look _)
  refine (part_reads (reads_look _)).then (fun past₁ loaded _ ↦ ?_) fun _ _ ↦ trivial
  cases loaded with
  | true => exact hend past₁
  | false =>
    refine (part_reads (reads_look _)).then (fun past₂ stillMissing _ ↦ ?_) fun _ _ ↦ trivial
    cases stillMissing with
    | false => exact hend past₂
    | true =>
      refine (part_reads (reads_buildSnapshot env)).then (fun past₃ built _ ↦ ?_) fun _ _ ↦ trivial
      have hstore : Part env same pluginName target (fun _ _ ↦ True) past₃ (update fun s : Shared D β ↦
          { s with snapshot := some built, generation := s.generation + 1 }) :=
        part_update (fun _ ↦ rfl) (fun _ ↦ rfl) fun _ ↦ rfl
      exact hstore.then (fun past₄ _ _ ↦ hend past₄) fun _ _ ↦ trivial

theorem part_requestedRecord : Part env same pluginName target (fun _ _ ↦ True) past
    (requestedRecord env pluginName : Activation D β (PluginRecord D × List (PluginRecord D))) := by
  have hget : ∀ past', Part env same pluginName target (fun _ _ ↦ True) past'
      (getRecord env pluginName : Activation D β (Option (PluginRecord D))) := fun past' ↦
    part_ensureLoaded.then (fun past₁ loaded _ ↦
      (show Part env same pluginName target (fun _ _ ↦ True) past₁ (lift (iterate loaded)) from trivial).then
        (fun _ _ _ ↦ trivial) fun _ _ ↦ trivial) fun _ _ ↦ trivial
  refine part_ensureLoaded.then (fun past₁ loaded _ ↦ ?_) fun _ _ ↦ trivial
  refine (hget past₁).then (fun past₂ record _ ↦ ?_) fun _ _ ↦ trivial
  cases record with
  | none => exact safe_throw trivial
  | some record =>
    refine Part.then (show Part env same pluginName target (fun _ _ ↦ True) past₂ (lift (iterate loaded)) from
      trivial) (fun past₃ records _ ↦ ?_) fun _ _ ↦ trivial
    exact safe_require (fun _ ↦ safe_pure trivial) trivial

/-- Looking something up in the registry. -/
theorem part_look {Q : History (Shared D β) → Except Fault α → Prop} {f : Shared D β → Except Fault α}
    (hQ : ∀ s, Remembered env s → Q ((s, s) :: past) (f s)) : Part env same pluginName target Q past (look f) :=
  safe_look (fun _ ↦ List.Subset.refl _) (fun _ _ ↦ ⟨rfl, .inl rfl⟩) fun s hs _ ↦ hQ s hs

/-- Nothing is claimed of a call that raises but what its accesses were. -/
theorem returns_of_error (past : History (Shared D β)) (e : Fault) (object : β)
    (heq : (.error e : Except Fault β) = .ok object) : Returns env same pluginName target past object := by
  cases heq

/-- Bytes that were just executed are in the log, and the call has seen them approved. -/
structure JustRan (env : Installation D) (same : PyJson → Option Bytes → Prop) (pluginName target : Text)
    (dir : D) (manifest : PluginManifest) (modulePath : Text) (x : Execution β)
    (past : History (Shared D β)) : Prop where
  logged : ∃ s t rest, past = (s, t) :: rest ∧ x ∈ t.executions
  approved : Approved env same pluginName target (env.sha256 x.source) past dir manifest modulePath

variable {dir : D} {manifest : PluginManifest} {modulePath : Text}

theorem part_execute {source : Bytes}
    (happroved : Approved env same pluginName target (env.sha256 source) past dir manifest modulePath) :
    Part env same pluginName target (fun past result ↦ ∀ ran, result = .ok ran →
      JustRan env same pluginName target dir manifest modulePath (⟨source, ran⟩ : Execution β) past) past
        (execute source : Activation D β (Ran β)) := by
  refine safe_act fun s hs _ ↦ ⟨fun key object hobject ↦ ?_, List.subset_cons_self _ _,
    ⟨rfl, .inr ⟨⟨source, s.world.run source⟩, dir, manifest, modulePath, rfl, happroved⟩⟩, fun ran heq ↦ ?_⟩
  · obtain ⟨x, hx, hfound⟩ := hs key object hobject
    exact ⟨x, List.mem_cons_of_mem _ hx, hfound⟩
  · cases heq
    exact ⟨⟨s, _, past, rfl, List.mem_cons_self⟩, happroved.mono (List.suffix_cons _ _)⟩

theorem part_remember {x : Execution β} (hran : JustRan env same pluginName target dir manifest modulePath x past) :
    Part env same pluginName target
      (fun past result ↦ ∀ object, result = .ok object → Returns env same pluginName target past object) past
        (remember (pluginName, target, env.sha256 x.source) (x.ran.object? (attrOf target)) :
          Activation D β β) := by
  cases hobject : x.ran.object? (attrOf target) with
  | none =>
    have hstore : Part env same pluginName target (fun _ _ ↦ True) past
        (update (rememberError (D := D) (β := β) (pluginName, target, env.sha256 x.source) .raised)) :=
      part_update (fun _ ↦ rfl) (fun _ ↦ rfl) fun _ ↦ rfl
    exact hstore.then (fun past' _ _ ↦ returns_of_error past' _) returns_of_error
  | some object =>
    obtain ⟨s, t, rest, hpast, hx⟩ := hran.logged
    have hstore : Part env same pluginName target (fun _ _ ↦ True) past
        (update (rememberObject (D := D) (pluginName, target, env.sha256 x.source) object)) := by
      refine safe_update fun s' hs' hfollows ↦ ⟨fun key found hfound ↦ ?_, List.Subset.refl _,
        ⟨rfl, .inl rfl⟩, trivial⟩
      -- The execution is still in the log when the object is cached.
      rw [hpast] at hfollows
      rw [rememberObject, OrderedDict.get?_set] at hfound
      split at hfound
      · next hkey =>
        cases hfound
        subst hkey
        exact ⟨x, hfollows hx, rfl, hobject⟩
      · exact hs' key found hfound
    refine hstore.then (fun past' _ hlonger object' heq ↦ ?_) returns_of_error
    cases heq
    exact ⟨s, t, x, dir, manifest, modulePath, hlonger.subset (hpast ▸ List.mem_cons_self), hx, hobject,
      hran.approved.mono hlonger⟩

/-- Approved bytes are executed, or what bytes with their hash gave before is returned. -/
theorem part_activateBytes {source : Bytes}
    (happroved : Approved env same pluginName target (env.sha256 source) past dir manifest modulePath) :
    Part env same pluginName target
      (fun past result ↦ ∀ object, result = .ok object → Returns env same pluginName target past object) past
        (activateBytes (pluginName, target, env.sha256 source) (attrOf target) source : Activation D β β) := by
  refine (part_reads (reads_look _)).then (fun past₁ failed h₁ ↦ ?_) returns_of_error
  cases failed with
  | true => exact (part_reads (reads_look _)).then (fun past₂ _ _ ↦ returns_of_error past₂ _) returns_of_error
  | false =>
    refine (part_reads (reads_look _)).then (fun past₂ cached h₂ ↦ ?_) returns_of_error
    cases cached with
    | true =>
      refine part_look fun s hs object heq ↦ ?_
      cases hget : s.activationCache.get? (pluginName, target, env.sha256 source) with
      | none =>
        rw [hget] at heq
        cases heq
      | some found =>
        rw [hget] at heq
        cases heq
        obtain ⟨x, hx, hhash, hobject⟩ := hs _ object hget
        refine ⟨s, s, x, dir, manifest, modulePath, List.mem_cons_self, hx, hobject, ?_⟩
        rw [hhash]
        exact happroved.mono ((h₁.trans h₂).trans (List.suffix_cons _ _))
    | false =>
      refine Safe.bind (part_execute (happroved.mono (h₁.trans h₂))) (fun past₃ ran _ hran ↦ ?_)
        fun past' e _ _ ↦ returns_of_error past' e
      have hjust := hran ran rfl
      cases ran with
      | baseException => exact returns_of_error past₃ _
      | module object attrs => exact part_remember hjust
      | exception => exact part_remember hjust

/-- A call executes and returns only what it has seen pass the checks. -/
theorem part_activateTarget (env : Installation D) (pluginName target : Text) :
    Part env (Compared env) pluginName target
      (fun past result ↦ ∀ object, result = .ok object → Returns env (Compared env) pluginName target past object)
        past (activateTarget env pluginName target : Activation D β β) := by
  refine part_requestedRecord.then (fun past₁ requested _ ↦ ?_) returns_of_error
  obtain ⟨record, records⟩ := requested
  refine Safe.bind (part_of_finds (finds_eligibleBundle env pluginName record)) (fun past₂ bundle _ hbundle ↦ ?_)
    fun past' e _ _ ↦ returns_of_error past' e
  have heligible := hbundle bundle rfl
  refine (part_reads (reads_otherToolOwners env pluginName records)).then (fun past₃ owned h₃ ↦ ?_)
    returns_of_error
  have hcollisions : Part env (Compared env) pluginName target (fun _ _ ↦ True) past₃
      (checkCollisions pluginName owned bundle.manifest.toolNames : Activation D β PUnit) := by
    unfold checkCollisions
    split
    · exact safe_pure trivial
    · exact safe_throw trivial
  refine hcollisions.then (fun past₄ _ h₄ ↦ ?_) returns_of_error
  cases hresolve : bundle.manifest.resolve target with
  | none => exact returns_of_error past₄ _
  | some resolved =>
    obtain ⟨modulePath, attr⟩ := resolved
    have hdeclares := PluginManifest.declares_of_resolve hresolve
    have hattr := attr_of_declares hdeclares heligible.scanned.relative
    have hverified : Part env (Compared env) pluginName target (fun past result ↦ ∀ source, result = .ok source →
        (∃ s, Saw past s ∧ s.world.file bundle.dir modulePath = some source) ∧
          SawRecorded past pluginName modulePath (env.sha256 source)) past₄
        (tryCatch (readAndVerifyTargetBytes env bundle.dir modulePath pluginName)
          fun fault ↦ throw (asRefusal fault) : Activation D β Bytes) :=
      Safe.handle (part_of_finds (finds_readAndVerify env bundle.dir modulePath pluginName))
        (fun _ _ _ hsource ↦ hsource) fun _ _ _ _ ↦ safe_throw fun _ heq ↦ by cases heq
    refine Safe.bind hverified (fun past₅ source h₅ hsource ↦ ?_) fun past' e _ _ ↦ returns_of_error past' e
    obtain ⟨⟨s, hsaw, hfile⟩, hrecorded⟩ := hsource source rfl
    have heligible₅ := heligible.mono ((h₃.trans h₄).trans h₅)
    rw [hattr]
    exact part_activateBytes ⟨heligible₅.scanned.place ▸ heligible₅.scanned.reread, heligible₅.name,
      hattr ▸ hdeclares, heligible₅.compatible, heligible₅.enabled, heligible₅.trusted,
      ⟨s, source, hsaw, hfile, rfl⟩, hrecorded⟩

end Call

/-! ## Calls among edits -/

/-- The value is the hash of the file. -/
def SameHash (env : Installation D) (value : PyJson) (file : Option Bytes) : Prop :=
  ∃ source, file = some source ∧ value = .str (env.sha256 source)

/-- The record of the plugin holds null in place of the hash of a file. -/
def NullHash (s : Shared D β) (pluginName rel : Text) : Prop :=
  ∃ settings record, s.world.settings = .ok settings ∧ (trustedPlugins settings).lookup pluginName = some record ∧
    (recordedTargets record).lookup rel = some .null

/-- In what the call has seen, no file is missing for which the record of the plugin held null. -/
def Pinned (pluginName : Text) (past : History (Shared D β)) : Prop :=
  ∀ s s' dir rel, Saw past s → Saw past s' → NullHash s pluginName rel → s'.world.file dir rel ≠ none

/-- The call has executed only approved bytes, and what it has returned came of approved bytes. -/
structure ApprovedOnly (env : Installation D) (call : Call (Text × Text) (Shared D β) Fault β) : Prop where
  executed : Kept (Executes env (SameHash env) call.arguments.1 call.arguments.2) call.past
  returned : ∀ object, call.routine = .done (.ok object) →
    Returns env (SameHash env) call.arguments.1 call.arguments.2 call.past object

variable {file : Option Bytes}

theorem sameHash_of_compared {env : Installation D} (h : Compared env value file) (hnot : value = .null → file ≠ none) :
    SameHash env value file := by
  cases file with
  | some source => exact ⟨source, rfl, isHash_some_iff.1 h⟩
  | none =>
    cases value with
    | null => exact absurd rfl (hnot rfl)
    | _ => exact absurd h Bool.false_ne_true

theorem Approved.pinned {env : Installation D}
    (h : Approved env (Compared env) pluginName target hash past dir manifest modulePath)
    (hpinned : Pinned pluginName past) :
    Approved env (SameHash env) pluginName target hash past dir manifest modulePath := by
  obtain ⟨s, settings, record, hsaw, hs, hrecord, hmatched⟩ := h.trusted
  refine ⟨h.reread, h.name, h.declares, h.compatible, h.enabled,
    ⟨s, settings, record, hsaw, hs, hrecord, hmatched.pinned, fun rel hrel ↦ ?_⟩, h.read, h.recorded⟩
  obtain ⟨value, s', hvalue, hsaw', hsame⟩ := hmatched.files rel hrel
  refine ⟨value, s', hvalue, hsaw', sameHash_of_compared hsame fun hnull ↦ ?_⟩
  rw [h.name] at hrecord
  exact hpinned s s' dir rel hsaw hsaw' ⟨settings, record, hs, hrecord, hnull ▸ hvalue⟩

theorem outside_keeps {env : Installation D} (s t : Shared D β) (hs : Remembered env s) (h : Outside s t) :
    Remembered env t ∧ Logs s t := by
  cases h with
  | edit world => exact ⟨hs, List.Subset.refl _⟩
  | reset => exact ⟨fun key object hobject ↦ (by cases hobject), List.Subset.refl _⟩

/-- In every interleaving of calls, edits and resets, a call executes and returns only approved code, unless
it sees null recorded for a file that it finds missing. -/
theorem activateTarget_approvedOnly (env : Installation D) (world : World D β)
    {sys : System (Text × Text) (Shared D β) Fault β}
    (hreach : Transition.Reachable (Step Outside fun k : Text × Text ↦ activateTarget env k.1 k.2)
      ⟨Shared.fresh world, []⟩ sys)
    {i : ℕ} {call : Call (Text × Text) (Shared D β) Fault β} (hcall : sys.calls[i]? = some call)
    (hpinned : Pinned call.arguments.1 call.past) : ApprovedOnly env call := by
  have hruled := ruled_of_reachable (I := Remembered env) (R := Logs)
    (G := fun k ↦ Executes env (Compared env) k.1 k.2)
    (Q := fun k past result ↦ ∀ object, result = .ok object → Returns env (Compared env) k.1 k.2 past object)
    (fun _ _ _ hst htu ↦ List.Subset.trans hst htu) (fun _ ↦ List.Subset.refl _) outside_keeps
    (fun k ↦ part_activateTarget env k.1 k.2) (fun key object hobject ↦ by cases hobject) hreach
  refine ⟨(hruled.kept i call hcall).imp fun past' s t hpast hstep ↦ ?_, fun object hdone ↦ ?_⟩
  · have hpinned' : Pinned call.arguments.1 past' := fun s₁ s₂ dir rel h₁ h₂ ↦
      hpinned s₁ s₂ dir rel (h₁.mono ((List.suffix_cons _ _).trans hpast))
        (h₂.mono ((List.suffix_cons _ _).trans hpast))
    rcases hstep.executed with hsame | ⟨x, dir, manifest, modulePath, hx, happroved⟩
    · exact ⟨hstep.world, .inl hsame⟩
    · exact ⟨hstep.world, .inr ⟨x, dir, manifest, modulePath, hx, happroved.pinned hpinned'⟩⟩
  · obtain ⟨s, t, x, dir, manifest, modulePath, hmem, hx, hobject, happroved⟩ :=
      hruled.result hcall hdone object rfl
    exact ⟨s, t, x, dir, manifest, modulePath, hmem, hx, hobject, happroved.pinned hpinned⟩

/-! ## A bundle with a file that may be missing -/

section Example

def hexText (bytes : Bytes) : Text :=
  bytes.flatMap fun b ↦ [PyJson.hexDigit (b.toNat / 16), PyJson.hexDigit (b.toNat % 16)]

def demo : Installation Unit := ⟨.ascii, hexText, fun _ ↦ true, fun _ ↦ "demo".toList⟩

def demoManifest : PluginManifest where
  name := "demo".toList
  version := "1".toList
  description := []
  lionagi := []
  capabilities :=
    { tools := [⟨"greet".toList, "greet.py:greet".toList, by decide⟩]
      hooksExternal := []
      agents := ["helper.md".toList]
      playbooks := []
      providers := []
      packs := [] }

/-- The settings with a record of the plugin, which holds a value for the second file. -/
def demoSettings (helper : PyJson) : PyJson :=
  .obj [("trusted_plugins".toList, .obj [("demo".toList, .obj
    [("manifest".toList, .str (demo.manifestHash demoManifest)),
      ("targets".toList, .obj [("greet.py".toList, .str (hexText [1])), ("helper.md".toList, helper)])])])]

def demoWorld (helper : PyJson) (file : Option Bytes) : World Unit ℕ where
  bundles := .ok [()]
  manifest _ := .ok (some demoManifest)
  inside _ _ := .ok true
  file _ rel := if rel = "greet.py".toList then some [1] else file
  settings := .ok (demoSettings helper)
  run _ := .module 0 fun _ ↦ some 7

def demoArguments : Text × Text := ("demo".toList, "greet.py:greet".toList)

/-- Calls of the installed program. -/
def demoBody (k : Text × Text) : Activation Unit ℕ ℕ := activateTarget demo k.1 k.2

/-- One call that is left alone. -/
def demoCall (helper : PyJson) (file : Option Bytes) : Call (Text × Text) (Shared Unit ℕ) Fault ℕ :=
  finished demoBody (Shared.fresh (demoWorld helper file)) demoArguments

/-- What the call comes to. -/
def demoResult (helper : PyJson) (file : Option Bytes) : Except Fault ℕ :=
  ((demoBody demoArguments).alone (Shared.fresh (demoWorld helper file)) []).2.2

theorem reachable_demo (helper : PyJson) (file : Option Bytes) :
    Transition.Reachable (Step Outside demoBody) ⟨Shared.fresh (demoWorld helper file), []⟩
      (solo demoBody (Shared.fresh (demoWorld helper file)) demoArguments) :=
  reachable_solo _ _

theorem world_of_saw_demo {helper : PyJson} {s : Shared Unit ℕ} (hsaw : Saw (demoCall helper file).past s) :
    s.world = demoWorld helper file := by
  have hpart : Safe (Remembered demo) Logs (Executes demo (Compared demo) demoArguments.1 demoArguments.2)
      (fun past result ↦ ∀ object, result = .ok object →
        Returns demo (Compared demo) demoArguments.1 demoArguments.2 past object) []
      (demoBody demoArguments) := part_activateTarget demo _ _
  have hremembered : Remembered demo (Shared.fresh (demoWorld helper file)) :=
    fun key object hobject ↦ by cases hobject
  have hworld : (Shared.fresh (demoWorld helper file)).world = demoWorld helper file := rfl
  exact seen_of_finished (P := fun s ↦ s.world = demoWorld helper file) hpart (fun _ ↦ List.Subset.refl _)
    (fun _ _ _ hstep hs ↦ hstep.world.trans hs) hremembered hworld hsaw

theorem activateTarget_approvedOnly_demo :
    (demoResult (.str (hexText [2])) (some [2])).toOption = some 7 ∧
      ApprovedOnly demo (demoCall (.str (hexText [2])) (some [2])) := by
  refine ⟨by decide +kernel, activateTarget_approvedOnly demo _ (reachable_demo _ _) (i := 0) rfl ?_⟩
  intro s s' dir rel _ hsaw' _ hnone
  rw [world_of_saw_demo hsaw'] at hnone
  change (if rel = "greet.py".toList then some [1] else some [2]) = none at hnone
  split at hnone <;> cases hnone

/-- With null recorded for a declared file that does not exist the target is executed and returned. -/
theorem not_approvedOnly_null :
    (demoResult .null none).toOption = some 7 ∧ Transition.Reachable (Step Outside demoBody)
      ⟨Shared.fresh (demoWorld .null none), []⟩
      (solo demoBody (Shared.fresh (demoWorld .null none)) demoArguments) ∧
      ¬ ApprovedOnly demo (demoCall .null none) := by
  have hresult : (demoResult .null none).toOption = some 7 := by decide +kernel
  refine ⟨hresult, reachable_demo _ _, fun hlaw ↦ ?_⟩
  have hdone : demoResult .null none = .ok 7 := by
    cases hrun : demoResult .null none with
    | ok object =>
      rw [hrun] at hresult
      cases hresult
      rfl
    | error e =>
      rw [hrun] at hresult
      cases hresult
  obtain ⟨s₀, t₀, x, dir, manifest, modulePath, -, -, -, happroved⟩ :=
    hlaw.returned 7 (congrArg Routine.done hdone)
  obtain ⟨s, hsaw, hs⟩ := happroved.reread
  rw [world_of_saw_demo hsaw] at hs
  cases hs
  obtain ⟨s₁, settings, record, -, -, -, hmatched⟩ := happroved.trusted
  obtain ⟨value, s', -, hsaw', source, hsource, -⟩ := hmatched.files "helper.md".toList (by decide +kernel)
  rw [world_of_saw_demo hsaw'] at hsource
  change (if "helper.md".toList = "greet.py".toList then some [1] else none) = some source at hsource
  rw [if_neg (by decide)] at hsource
  cases hsource

end Example

end Lionagi.Plugins
