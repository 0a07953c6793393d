import Lionagi.Agent.Permissions

/-!
# Every rule of a permission policy

The rules that count are those listed under the last spelling of a tool. A policy rules a call as all listed rules do
exactly when no rule that is lost decides it and every pattern that is asked can be compared with the call.
-/

namespace Lionagi.Agent

variable {V : Type} (py : PermissionText V)

/-! ## Matching -/

/-- The pattern matches the rendered call. -/
def hits (call : CallValue V) (pattern : Text) : Bool :=
  match matchesPattern py pattern call with
  | .ok hit => hit
  | .error _ => false

/-- No pattern but `*` is compared with a call that is not rendered as a text. -/
def Comparable (call : CallValue V) (patterns : List Text) : Prop :=
  (∃ t, call = .text t) ∨ ∀ pattern ∈ patterns.head?, pattern = anyText

variable {py} {call : CallValue V} {patterns : List Text}

theorem firstMatch_of_comparable (h : Comparable call patterns) :
    firstMatch py call patterns = .ok (patterns.find? (hits py call)) := by
  cases call with
  | text t =>
    induction patterns with
    | nil => rfl
    | cons pattern patterns ih =>
      rw [firstMatch, List.find?_cons, ih (.inl ⟨t, rfl⟩)]
      change (if (hits py (.text t) pattern) = true then _ else _) = _
      cases hits py (.text t) pattern <;> rfl
  | other v =>
    cases patterns with
    | nil => rfl
    | cons pattern patterns =>
      have hany : pattern = anyText := h.elim (fun ⟨t, ht⟩ ↦ by cases ht) fun h ↦ h pattern rfl
      subst hany
      rfl

theorem firstMatch_of_not_comparable (h : ¬ Comparable call patterns) :
    firstMatch py call patterns = .error .typeError := by
  cases call with
  | text t => exact absurd (.inl ⟨t, rfl⟩) h
  | other v =>
    cases patterns with
    | nil => exact absurd (.inr (by simp)) h
    | cons pattern patterns =>
      have hany : pattern ≠ anyText := fun heq ↦ h (.inr (by simp [heq]))
      rw [firstMatch, matchesPattern, if_neg hany]
      rfl

/-! ## The three questions -/

/-- Deny comes before allow, allow before escalate, and deny is the default. -/
def rulingOf (deny allow escalate : Bool) : Behavior :=
  if deny then .deny else if allow then .allow else if escalate then .escalate else .deny

/-- Rules ask in vain when fewer of them are heard, unless those that are heard rule in the same way. -/
theorem rulingOf_eq_rulingOf_iff {deny deny' allow allow' escalate escalate' : Bool} (hdeny : deny' = true → deny = true)
    (hallow : allow' = true → allow = true) (hescalate : escalate' = true → escalate = true) :
    rulingOf deny' allow' escalate' = rulingOf deny allow escalate ↔
      deny' = true ∨ (deny = true ∧ allow' = false ∧ escalate' = false) ∨
        deny = false ∧ (allow' = true ∨ allow = false ∧ (escalate' = true ∨ escalate = false)) := by
  unfold rulingOf
  cases deny' with
  | true => simp [hdeny rfl]
  | false =>
    cases deny with
    | true => cases allow' <;> cases escalate' <;> simp
    | false =>
      cases allow' with
      | true => simp [hallow rfl]
      | false =>
        cases allow with
        | true => cases escalate' <;> simp
        | false =>
          cases escalate' with
          | true => simp [hescalate rfl]
          | false => cases escalate <;> simp

variable (py) in
/-- Whether one of the patterns matches the call. -/
def anyHit (call : CallValue V) (patterns : List Text) : Bool := patterns.any (hits py call)

theorem find?_eq_none_of_anyHit (h : anyHit py call patterns = false) : patterns.find? (hits py call) = none := by
  rw [List.find?_eq_none]
  intro pattern hmem hhit
  exact absurd (List.any_eq_true.2 ⟨pattern, hmem, hhit⟩) (by rw [anyHit] at h; simp [h])

theorem exists_find?_of_anyHit (h : anyHit py call patterns = true) :
    ∃ pattern, patterns.find? (hits py call) = some pattern := by
  rw [← Option.isSome_iff_exists, List.find?_isSome]
  exact List.any_eq_true.1 h

variable (py) in
/-- Every pattern that `check` asks before it has an answer can be compared with the call. -/
def RulesRead (policy : PermissionPolicy) (toolName : Text) (call : CallValue V) : Prop :=
  Comparable call (rulesFor policy.deny toolName) ∧ (anyHit py call (rulesFor policy.deny toolName) = true ∨
    Comparable call (rulesFor policy.allow toolName) ∧ (anyHit py call (rulesFor policy.allow toolName) = true ∨
      Comparable call (rulesFor policy.escalate toolName)))

variable {policy : PermissionPolicy} {toolName : Text}

theorem ruling_of_rulesRead (action : Text) (h : RulesRead py policy toolName call) :
    ∃ decision, policy.ruling py toolName action call = .ok decision ∧ decision.behavior =
      rulingOf (anyHit py call (rulesFor policy.deny toolName)) (anyHit py call (rulesFor policy.allow toolName))
        (anyHit py call (rulesFor policy.escalate toolName)) := by
  obtain ⟨hdeny, h⟩ := h
  rw [PermissionPolicy.ruling, firstMatch_of_comparable hdeny]
  cases hhit : anyHit py call (rulesFor policy.deny toolName) with
  | true =>
    obtain ⟨pattern, hfind⟩ := exists_find?_of_anyHit hhit
    rw [hfind]
    exact ⟨_, rfl, rfl⟩
  | false =>
    obtain ⟨hallow, h⟩ := h.resolve_left (by simp [hhit])
    rw [find?_eq_none_of_anyHit hhit, firstMatch_of_comparable hallow]
    cases hhit' : anyHit py call (rulesFor policy.allow toolName) with
    | true =>
      obtain ⟨pattern, hfind⟩ := exists_find?_of_anyHit hhit'
      rw [hfind]
      exact ⟨_, rfl, rfl⟩
    | false =>
      rw [find?_eq_none_of_anyHit hhit', firstMatch_of_comparable (h.resolve_left (by simp [hhit']))]
      cases hhit'' : anyHit py call (rulesFor policy.escalate toolName) with
      | true =>
        obtain ⟨pattern, hfind⟩ := exists_find?_of_anyHit hhit''
        rw [hfind]
        exact ⟨_, rfl, rfl⟩
      | false =>
        rw [find?_eq_none_of_anyHit hhit'']
        exact ⟨_, rfl, rfl⟩

theorem ruling_of_not_rulesRead (action : Text) (h : ¬ RulesRead py policy toolName call) :
    policy.ruling py toolName action call = .error .typeError := by
  rw [PermissionPolicy.ruling]
  by_cases hdeny : Comparable call (rulesFor policy.deny toolName)
  · rw [firstMatch_of_comparable hdeny]
    have hhit : anyHit py call (rulesFor policy.deny toolName) = false :=
      Bool.eq_false_iff.2 fun hhit ↦ h ⟨hdeny, .inl hhit⟩
    rw [find?_eq_none_of_anyHit hhit]
    by_cases hallow : Comparable call (rulesFor policy.allow toolName)
    · rw [firstMatch_of_comparable hallow]
      have hhit' : anyHit py call (rulesFor policy.allow toolName) = false :=
        Bool.eq_false_iff.2 fun hhit' ↦ h ⟨hdeny, .inr ⟨hallow, .inl hhit'⟩⟩
      rw [find?_eq_none_of_anyHit hhit',
        firstMatch_of_not_comparable fun hescalate ↦ h ⟨hdeny, .inr ⟨hallow, .inr hescalate⟩⟩]
      rfl
    · rw [firstMatch_of_not_comparable hallow]
      rfl
  · rw [firstMatch_of_not_comparable hdeny]
    rfl

/-! ## Rules that are listed and rules that are kept -/

section Rules

variable (py) (rules : RuleMap) (toolName : Text)

/-- Listed under a spelling of the tool or under `*`. -/
def listed : List Text :=
  (rules.entries.filter fun rule ↦ canonicalToolName py rule.1 = canonicalToolName py toolName ∨
    canonicalToolName py rule.1 = anyText).flatMap Prod.snd

/-- What the policy asks for the tool. -/
def kept : List Text := rulesFor (normalizeRules py rules) (canonicalToolName py toolName)

variable {py rules toolName} {pattern name : Text}

theorem mem_listed_iff : pattern ∈ listed py rules toolName ↔ ∃ rule ∈ rules.entries,
    (canonicalToolName py rule.1 = canonicalToolName py toolName ∨ canonicalToolName py rule.1 = anyText) ∧
      pattern ∈ rule.2 := by
  simp [listed, and_assoc]

theorem exists_rule_of_mem_getD (h : pattern ∈ ((normalizeRules py rules).get? name).getD []) :
    ∃ rule ∈ rules.entries, canonicalToolName py rule.1 = name ∧ pattern ∈ rule.2 := by
  cases hget : (normalizeRules py rules).get? name with
  | none =>
    rw [hget] at h
    cases h
  | some patterns =>
    rw [hget] at h
    obtain ⟨rule, hmem, heq⟩ := List.mem_map.1 (OrderedDict.mem_of_get?_ofList hget)
    cases heq
    exact ⟨rule, hmem, rfl, h⟩

theorem mem_listed_of_mem_kept (h : pattern ∈ kept py rules toolName) : pattern ∈ listed py rules toolName := by
  rw [mem_listed_iff]
  rcases List.mem_append.1 h with h | h
  · obtain ⟨rule, hmem, hname, hpattern⟩ := exists_rule_of_mem_getD h
    exact ⟨rule, hmem, .inl hname, hpattern⟩
  · obtain ⟨rule, hmem, hname, hpattern⟩ := exists_rule_of_mem_getD h
    exact ⟨rule, hmem, .inr hname, hpattern⟩

theorem anyHit_listed_of_kept (h : anyHit py call (kept py rules toolName) = true) :
    anyHit py call (listed py rules toolName) = true := by
  obtain ⟨pattern, hmem, hhit⟩ := List.any_eq_true.1 h
  exact List.any_eq_true.2 ⟨pattern, mem_listed_of_mem_kept hmem, hhit⟩

end Rules

/-! ## Every rule counts -/

section Counts

variable (py) (allow deny escalate : RuleMap) (toolName action : Text) (args : CallArgs V)

abbrev rulesPolicy : PermissionPolicy := .new py "rules" allow deny escalate

/-- One of the rules listed for the tool matches the call. -/
def anyListed (rules : RuleMap) : Bool :=
  match buildMatchString py (canonicalToolName py toolName) action args with
  | .ok call => anyHit py call (listed py rules toolName)
  | .error _ => false

/-- The call is ruled by all rules listed for the tool, and in the same way under every spelling of it. -/
structure EveryRuleCounts : Prop where
  ruled : ∃ decision, (rulesPolicy py allow deny escalate).check py toolName action args = .ok decision ∧
    decision.behavior = rulingOf (anyListed py toolName action args deny) (anyListed py toolName action args allow)
      (anyListed py toolName action args escalate)
  spelled : ∀ spelling, canonicalToolName py spelling = canonicalToolName py toolName →
    (rulesPolicy py allow deny escalate).check py spelling action args =
      (rulesPolicy py allow deny escalate).check py toolName action args

/-- No rule that is lost decides the call. -/
def NoneMissed (call : CallValue V) : Prop :=
  anyHit py call (kept py deny toolName) = true ∨
    (anyHit py call (listed py deny toolName) = true ∧ anyHit py call (kept py allow toolName) = false ∧
      anyHit py call (kept py escalate toolName) = false) ∨
    anyHit py call (listed py deny toolName) = false ∧ (anyHit py call (kept py allow toolName) = true ∨
      anyHit py call (listed py allow toolName) = false ∧ (anyHit py call (kept py escalate toolName) = true ∨
        anyHit py call (listed py escalate toolName) = false))

/-- The call is refused for its shell controls, or it is compared with the patterns and no lost rule decides it. -/
def CallRuled : Prop :=
  match buildMatchString py (canonicalToolName py toolName) action args with
  | .error (.permission _) => True
  | .error .typeError => False
  | .ok call => RulesRead py (rulesPolicy py allow deny escalate) (canonicalToolName py toolName) call ∧
      NoneMissed py allow deny escalate toolName call

theorem check_rulesPolicy : (rulesPolicy py allow deny escalate).check py toolName action args =
    match buildMatchString py (canonicalToolName py toolName) action args with
    | .error (.permission message) => .ok ⟨.deny, canonicalToolName py toolName, action, message, none⟩
    | .error .typeError => .error .typeError
    | .ok call => (rulesPolicy py allow deny escalate).ruling py (canonicalToolName py toolName) action call := rfl

/-- The answer depends on the tool's name only through its canonical form. -/
theorem check_spelling {spelling : Text} (h : canonicalToolName py spelling = canonicalToolName py toolName) :
    (rulesPolicy py allow deny escalate).check py spelling action args =
      (rulesPolicy py allow deny escalate).check py toolName action args := by
  rw [check_rulesPolicy, check_rulesPolicy, h]

theorem everyRuleCounts_iff : EveryRuleCounts py allow deny escalate toolName action args ↔
    CallRuled py allow deny escalate toolName action args := by
  have hiff : EveryRuleCounts py allow deny escalate toolName action args ↔ ∃ decision,
      (rulesPolicy py allow deny escalate).check py toolName action args = .ok decision ∧ decision.behavior =
        rulingOf (anyListed py toolName action args deny) (anyListed py toolName action args allow)
          (anyListed py toolName action args escalate) :=
    ⟨fun h ↦ h.ruled, fun h ↦ ⟨h, fun _ ↦ check_spelling py allow deny escalate toolName action args⟩⟩
  rw [hiff, check_rulesPolicy]
  unfold CallRuled anyListed
  cases buildMatchString py (canonicalToolName py toolName) action args with
  | error e =>
    cases e with
    | permission message => exact iff_of_true ⟨_, rfl, rfl⟩ trivial
    | typeError => exact iff_of_false (fun ⟨_, h, _⟩ ↦ by cases h) id
  | ok call =>
    by_cases hread : RulesRead py (rulesPolicy py allow deny escalate) (canonicalToolName py toolName) call
    · obtain ⟨decision, hdecision, hbehavior⟩ := ruling_of_rulesRead action hread
      have hlisted (rules : RuleMap) : anyHit py call (kept py rules toolName) = true →
          anyHit py call (listed py rules toolName) = true := anyHit_listed_of_kept
      have hruling := rulingOf_eq_rulingOf_iff (hlisted deny) (hlisted allow) (hlisted escalate)
      constructor
      · rintro ⟨decision', hdecision', hbehavior'⟩
        cases hdecision.symm.trans hdecision'
        exact ⟨hread, hruling.1 (hbehavior.symm.trans hbehavior')⟩
      · intro h
        exact ⟨decision, hdecision, hbehavior.trans (hruling.2 h.2)⟩
    · refine iff_of_false ?_ fun h ↦ hread h.1
      rintro ⟨decision, hdecision, -⟩
      cases (ruling_of_not_rulesRead action hread).symm.trans hdecision

end Counts

/-! ## Rules under two spellings -/

/-- Strings of ASCII letters, where every argument is a string. -/
def asciiText : PermissionText Empty where
  lower := List.map Char.toLower
  repr := id
  str := Empty.elim
  truthy := Empty.elim

/-- `deny={"bash": ["rm *"], "Bash": ["sudo *"]}` -/
def twoSpellings : RuleMap :=
  .ofList [("bash".toList, ["rm *".toList]), ("Bash".toList, ["sudo *".toList])]

/-- A denied command is allowed when another spelling of the tool follows the rule that denies it. -/
theorem not_everyRuleCounts_twoSpellings : ¬ ∀ (V : Type) (py : PermissionText V) (allow deny escalate : RuleMap)
    (toolName action : Text) (args : CallArgs V), EveryRuleCounts py allow deny escalate toolName action args := by
  intro h
  have hruled := (h Empty asciiText (.ofList [("bash".toList, ["*".toList])]) twoSpellings .empty "bash".toList
    "call".toList (.ofList [("command".toList, .text "rm -rf x".toList)])).ruled
  obtain ⟨decision, hdecision, hbehavior⟩ := hruled
  have hallowed : (rulesPolicy asciiText (.ofList [("bash".toList, ["*".toList])]) twoSpellings .empty).check asciiText
      "bash".toList "call".toList (.ofList [("command".toList, .text "rm -rf x".toList)]) =
        .ok ⟨.allow, "bash".toList, "call".toList, "allowed by rule: *".toList, some "*".toList⟩ := by decide +kernel
  cases hallowed.symm.trans hdecision
  exact absurd hbehavior (by decide +kernel)

end Lionagi.Agent
