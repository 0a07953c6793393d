import Lionagi.Library.Transition
import Lionagi.Scheduler.FollowOnStep

/-!
# One winner for each run

The party whose terminal write succeeds emits the signal of the run and starts its chain child. Another has
no effect on the run, unless it is the launching engine and its outcome has a chain child: that engine does
not ask whether its write has succeeded.
-/

namespace Lionagi.Scheduler

universe u

namespace FollowOn

def isTerminal (r : ℕ) : FollowOn → Bool
  | terminal run _ => run = r
  | _ => false

def isSignal (r : ℕ) : FollowOn → Bool
  | signal run _ => run = r
  | _ => false

def isChain (r : ℕ) : FollowOn → Bool
  | chain run _ => run = r
  | _ => false

end FollowOn

namespace ChainSystem

variable {S : Type u} (config : ChainConfig S) (system : ChainSystem S)

/-- The number of effects with a property. -/
def tally (p : FollowOn → Bool) : ℕ := system.effects.countP p

/-- The number of chain children of a run. -/
def children (r : ℕ) : ℕ := system.runs.countP (·.chainParentId = some r)

/-- The terminal write of a run succeeds once, when a party has come to it, and only that party emits the
signal of the run and starts its chain child, each at most once. -/
structure FollowOnOnce : Prop where
  terminal : ∀ r, system.tally (·.isTerminal r) ≤ 1
  settled : ∀ party ∈ system.parties, party.stage.won ≠ none → system.tally (·.isTerminal party.run) = 1
  signal : ∀ r, system.tally (·.isSignal r) ≤ 1
  signaller : ∀ r p, .signal r p ∈ system.effects → .terminal r p ∈ system.effects
  chainer : ∀ r p, .chain r p ∈ system.effects → .terminal r p ∈ system.effects
  child : ∀ r, system.children r ≤ 1

/-- A launching engine that comes to the chain child after its terminal write was refused has no chain child
for its outcome, or the chain is too deep. -/
def LoserEnds : ChainOp → Prop
  | .chain i => ∀ party ∈ system.parties[i]?, ∀ run ∈ system.runs[party.run]?,
      ∀ invStatus, party.stage = .finalized invStatus false →
        chainAction config party.role invStatus = none ∨ maxChainDepth ≤ run.chainDepth
  | _ => True

/-! ## What is left to do -/

def unsignalled (r : ℕ) : ℕ := system.parties.countP fun party ↦ party.run = r && party.stage.isUnsignalled

def unchained (r : ℕ) : ℕ := system.parties.countP fun party ↦ party.run = r && party.stage.won = some true

def uninserted (r : ℕ) : ℕ := system.starts.countP fun start ↦ start.parent = r && !start.inserted

/-- The effects on a run, with those that are left to do, come from its terminal write. -/
structure Settled : Prop where
  terminal : ∀ r, system.tally (·.isTerminal r) = (system.isTerminal r).toNat
  signal : ∀ r, system.tally (·.isSignal r) + system.unsignalled r ≤ system.tally (·.isTerminal r)
  chain : ∀ r, system.tally (·.isChain r) + system.unchained r ≤ system.tally (·.isTerminal r)
  child : ∀ r, system.children r + system.uninserted r ≤ system.tally (·.isChain r)
  past : ∀ party ∈ system.parties, party.stage.won ≠ none → system.isTerminal party.run = true
  winner : ∀ i party, system.parties[i]? = some party → party.stage.won = some true →
    .terminal party.run i ∈ system.effects
  fresh : ∀ i party, system.parties[i]? = some party → party.isFresh = true →
    .terminal party.run i ∉ system.effects
  bounded : ∀ r p, .terminal r p ∈ system.effects → p < system.parties.length
  signaller : ∀ r p, .signal r p ∈ system.effects → .terminal r p ∈ system.effects
  chainer : ∀ r p, .chain r p ∈ system.effects → .terminal r p ∈ system.effects
  sound : ∀ party ∈ system.parties, party.stage.Sound

variable {config system} {system' : ChainSystem S} {i : ℕ} {party party' : Party S}

theorem isTerminal_of_keys (h : system'.runs.map ChainRun.key = system.runs.map ChainRun.key) (r : ℕ) :
    system'.isTerminal r = system.isTerminal r := by
  have hkeys : ∀ runs : List ChainRun, runs[r]?.any (fun run ↦ run.status ≠ "running") =
      (runs.map ChainRun.key)[r]?.any fun key ↦ key.2 ≠ "running" := by
    intro runs
    rw [List.getElem?_map, Option.any_map]
    rfl
  rw [isTerminal, isTerminal, hkeys, hkeys, h]

theorem children_of_keys (h : system'.runs.map ChainRun.key = system.runs.map ChainRun.key) (r : ℕ) :
    system'.children r = system.children r := by
  have hkeys : ∀ runs : List ChainRun, runs.countP (·.chainParentId = some r) =
      (runs.map ChainRun.key).countP (·.1 = some r) := by
    intro runs
    rw [List.countP_map]
    rfl
  rw [children, children, hkeys, hkeys, h]

/-! ## Quiet steps -/

theorem unsignalled_setParty_le (hparty : system.parties[i]? = some party) (hrun : party'.run = party.run)
    (h : party'.stage.isUnsignalled = true → party.stage.isUnsignalled = true) (r : ℕ) :
    (system.setParty i party').unsignalled r ≤ system.unsignalled r := by
  apply Processes.countP_set_le hparty
  rw [hrun, Bool.and_eq_true_iff, Bool.and_eq_true_iff]
  exact And.imp_right h

theorem unchained_setParty_le (hparty : system.parties[i]? = some party) (hrun : party'.run = party.run)
    (h : party'.stage.won = some true → party.stage.won = some true) (r : ℕ) :
    (system.setParty i party').unchained r ≤ system.unchained r := by
  apply Processes.countP_set_le hparty
  simp only [hrun, Bool.and_eq_true, decide_eq_true_eq]
  exact And.imp_right h

theorem Settled.quiet (h : system.Settled) (hparty : system.parties[i]? = some party)
    (hquiet : system.Quiet party party') {runs : List ChainRun}
    (hkeys : runs.map ChainRun.key = system.runs.map ChainRun.key) :
    ({ system with runs := runs }.setParty i party').Settled := by
  have hterminal : ∀ r, ({ system with runs := runs }.setParty i party').isTerminal r = system.isTerminal r :=
    isTerminal_of_keys hkeys
  have hmem : party ∈ system.parties := List.mem_of_getElem? hparty
  constructor
  case terminal => exact fun r ↦ (h.terminal r).trans (congrArg Bool.toNat (hterminal r).symm)
  case signal =>
    intro r
    have hle := unsignalled_setParty_le hparty hquiet.run hquiet.unsignalled r
    exact Nat.le_trans (Nat.add_le_add_left hle _) (h.signal r)
  case chain =>
    intro r
    have hle := unchained_setParty_le hparty hquiet.run hquiet.won r
    exact Nat.le_trans (Nat.add_le_add_left hle _) (h.chain r)
  case child =>
    intro r
    have hchildren : ({ system with runs := runs }.setParty i party').children r = system.children r :=
      children_of_keys hkeys r
    rw [hchildren]
    exact h.child r
  case past =>
    intro other hother hwon
    rw [hterminal]
    rcases List.mem_or_eq_of_mem_set hother with hold | rfl
    · exact h.past other hold hwon
    · rw [hquiet.run]
      rcases hquiet.past hwon with hbefore | hnow
      · exact h.past party hmem hbefore
      · exact hnow
  case winner =>
    intro j other hother hwon
    rcases Processes.getElem?_set_cases hother with ⟨rfl, rfl⟩ | ⟨-, hold⟩
    · rw [hquiet.run]
      exact h.winner j party hparty (hquiet.won hwon)
    · exact h.winner j other hold hwon
  case fresh =>
    intro j other hother hfresh
    rcases Processes.getElem?_set_cases hother with ⟨rfl, rfl⟩ | ⟨-, hold⟩
    · rw [hquiet.run]
      exact h.fresh j party hparty (hquiet.fresh hfresh)
    · exact h.fresh j other hold hfresh
  case bounded =>
    intro r p hterminal
    exact Nat.lt_of_lt_of_eq (h.bounded r p hterminal) List.length_set.symm
  case signaller => exact h.signaller
  case chainer => exact h.chainer
  case sound =>
    intro other hother
    rcases List.mem_or_eq_of_mem_set hother with hold | rfl
    · exact h.sound other hold
    · exact hquiet.sound (h.sound party hmem)

/-! ## New parties -/

/-- A party is added that has done nothing, maybe with a run and the chain child that it is. -/
theorem Settled.add (h : system.Settled) (hparties : system'.parties = system.parties ++ [party])
    (heffects : system'.effects = system.effects) (hwon : party.stage.won = none)
    (hsound : party.stage.Sound) (hterminal : ∀ r, system'.isTerminal r = system.isTerminal r)
    (hchild : ∀ r, system'.children r + system'.uninserted r ≤ system.children r + system.uninserted r) :
    system'.Settled := by
  have htally : ∀ p, system'.tally p = system.tally p := fun p ↦ congrArg (List.countP p) heffects
  have hunsignalled : ∀ r, system'.unsignalled r = system.unsignalled r := by
    intro r
    rw [unsignalled, hparties]
    apply Processes.countP_concat_of_false
    rw [Bool.and_eq_false_iff]
    right
    revert hwon
    cases party.stage <;> simp [PartyStage.won, PartyStage.isUnsignalled]
  have hunchained : ∀ r, system'.unchained r = system.unchained r := by
    intro r
    rw [unchained, hparties]
    apply Processes.countP_concat_of_false
    rw [hwon, Bool.and_eq_false_iff]
    exact .inr rfl
  constructor
  case terminal => exact fun r ↦ (htally _).trans ((h.terminal r).trans (congrArg Bool.toNat (hterminal r).symm))
  case signal =>
    intro r
    rw [htally, htally, hunsignalled]
    exact h.signal r
  case chain =>
    intro r
    rw [htally, htally, hunchained]
    exact h.chain r
  case child =>
    intro r
    rw [htally]
    exact Nat.le_trans (hchild r) (h.child r)
  case past =>
    intro other hother hpast
    rw [hparties] at hother
    rw [hterminal]
    rcases List.mem_append.1 hother with hold | hnew
    · exact h.past other hold hpast
    · cases List.mem_singleton.1 hnew
      exact absurd hwon hpast
  case winner =>
    intro j other hother hwins
    rw [hparties] at hother
    rw [heffects]
    rcases Processes.getElem?_concat_cases hother with ⟨-, rfl⟩ | hold
    · cases hwon.symm.trans hwins
    · exact h.winner j other hold hwins
  case fresh =>
    intro j other hother hfresh
    rw [hparties] at hother
    rw [heffects]
    rcases Processes.getElem?_concat_cases hother with ⟨rfl, rfl⟩ | hold
    · exact fun hmem ↦ Nat.lt_irrefl _ (h.bounded _ _ hmem)
    · exact h.fresh j other hold hfresh
  case bounded =>
    intro r p hmem
    rw [heffects] at hmem
    rw [hparties, List.length_append]
    exact Nat.lt_add_right _ (h.bounded r p hmem)
  case signaller =>
    rw [heffects]
    exact h.signaller
  case chainer =>
    rw [heffects]
    exact h.chainer
  case sound =>
    intro other hother
    rw [hparties] at hother
    rcases List.mem_append.1 hother with hold | hnew
    · exact h.sound other hold
    · cases List.mem_singleton.1 hnew
      exact hsound

variable {run : ChainRun}

theorem isTerminal_insertRun {schedule : S} (hrun : run.status = "running") (r : ℕ) :
    (system.insertRun schedule run).isTerminal r = system.isTerminal r := by
  change (system.runs ++ [run])[r]?.any _ = system.runs[r]?.any _
  by_cases hlt : r < system.runs.length
  · rw [List.getElem?_append_left hlt]
  · rw [List.getElem?_eq_none (Nat.le_of_not_lt hlt), List.getElem?_append_right (Nat.le_of_not_lt hlt)]
    cases hindex : r - system.runs.length with
    | zero => simp [hrun]
    | succ n => rfl

theorem Settled.fire (h : system.Settled) :
    (system.insertRun config.stored ⟨none, 0, "running", false, "running"⟩).Settled := by
  refine h.add rfl rfl rfl trivial (isTerminal_insertRun rfl) fun r ↦ Nat.le_of_eq ?_
  exact congrArg (· + system.uninserted r) (Processes.countP_concat_of_false rfl)

theorem Settled.insertChild (h : system.Settled) {k : ℕ} {start : ChainStart S}
    (hstart : system.starts[k]? = some start) (hinserted : start.inserted = false) :
    ({ system.insertRun start.schedule ⟨some start.parent, start.depth, "running", false, "running"⟩ with
      starts := system.starts.set k { start with inserted := true } } : ChainSystem S).Settled := by
  have hterminal : ∀ r, (system.insertRun start.schedule
      ⟨some start.parent, start.depth, "running", false, "running"⟩).isTerminal r = system.isTerminal r :=
    isTerminal_insertRun rfl
  refine h.add rfl rfl rfl trivial hterminal fun r ↦ Nat.le_of_eq ?_
  have hset := Processes.countP_set_add (p := fun start ↦ start.parent = r && !start.inserted)
    (a := { start with inserted := true }) hstart
  change (system.runs ++ [_]).countP _ + (system.starts.set k _).countP _ =
    system.runs.countP _ + system.starts.countP _
  rw [List.countP_append, List.countP_singleton]
  by_cases hparent : start.parent = r
  · simp [hparent, hinserted] at hset ⊢
    omega
  · simp [hparent] at hset ⊢
    omega

theorem Settled.scan (h : system.Settled) (r : ℕ) :
    (system.addParty ⟨.reconciler, r, .examining "completed"⟩).Settled := by
  have hsound : (PartyStage.examining "completed").Sound := by
    change "completed" ≠ "running"
    decide
  exact h.add rfl rfl rfl hsound (fun _ ↦ rfl) fun _ ↦ Nat.le_refl _

/-! ## Effects -/

theorem tally_addEffect (p : FollowOn → Bool) (effect : FollowOn) :
    (system.addEffect effect).tally p = system.tally p + (p effect).toNat := by
  change (system.effects ++ [effect]).countP p = _
  rw [List.countP_append, List.countP_singleton]
  cases p effect <;> rfl

theorem mem_addEffect {effect effect' : FollowOn} :
    effect ∈ (system.addEffect effect').effects ↔ effect ∈ system.effects ∨ effect = effect' := by
  change effect ∈ system.effects ++ [effect'] ↔ _
  rw [List.mem_append, List.mem_singleton]

variable {invStatus status : String}

theorem isTerminal_setRun {r : ℕ} (hrun : system.runs[r]? = some run) (hstatus : status ≠ "running") (r' : ℕ) :
    (system.setRun r { run with status := status }).isTerminal r' = (decide (r = r') || system.isTerminal r') := by
  by_cases heq : r = r'
  · subst heq
    rw [decide_eq_true rfl, Bool.true_or]
    exact isTerminal_of_run (Processes.getElem?_set_self_of_some hrun) hstatus
  · rw [decide_eq_false heq, Bool.false_or]
    change (system.runs.set r _)[r']?.any _ = _
    rw [List.getElem?_set_ne heq]
    rfl

/-- The terminal write gives a party what is left to do. -/
theorem Settled.win (h : system.Settled) (hparty : system.parties[i]? = some party)
    (hstage : party.stage = .resolved invStatus status) (hrun : system.runs[party.run]? = some run)
    (hrunning : run.status = "running") :
    (((system.setRun party.run { run with status := status }).addEffect (.terminal party.run i)).move i party
      (.written invStatus true)).Settled := by
  have hsound : status ≠ "running" := by
    have hmem := h.sound party (List.mem_of_getElem? hparty)
    rw [hstage] at hmem
    exact hmem
  have hbefore : system.isTerminal party.run = false := by
    rw [isTerminal, hrun]
    exact decide_eq_false (not_not_intro hrunning)
  have hafter := isTerminal_setRun hrun hsound
  have htally : ∀ p effect, (system.addEffect effect).tally p = system.tally p + (p effect).toNat :=
    tally_addEffect
  constructor
  case terminal =>
    intro r
    refine (htally _ (.terminal party.run i)).trans ?_
    refine Eq.trans ?_ (congrArg Bool.toNat (hafter r).symm)
    rw [h.terminal r]
    change _ + (decide (party.run = r)).toNat = _
    by_cases heq : party.run = r
    · rw [← heq, hbefore, decide_eq_true rfl]
      rfl
    · rw [decide_eq_false heq, Bool.false_or]
      rfl
  case signal =>
    intro r
    have hset := Processes.countP_set_add (p := fun party ↦ party.run = r && party.stage.isUnsignalled)
      (a := { party with stage := .written invStatus true }) hparty
    have hold : party.stage.isUnsignalled = false := by
      rw [hstage]
      rfl
    have hnew : (PartyStage.written invStatus true).isUnsignalled = true := rfl
    simp only [hold, hnew, Bool.and_false, Bool.and_true, Bool.toNat_false] at hset
    have hsignal : (system.tally (·.isSignal r)) + system.unsignalled r ≤ _ := h.signal r
    have htallies := htally (·.isSignal r) (.terminal party.run i)
    have htallyt := htally (·.isTerminal r) (.terminal party.run i)
    change (system.addEffect (.terminal party.run i)).tally _ + (system.parties.set i _).countP _ ≤
      (system.addEffect (.terminal party.run i)).tally _
    rw [htallies, htallyt]
    change _ + 0 + _ ≤ _ + (decide (party.run = r)).toNat
    unfold unsignalled at hsignal
    omega
  case chain =>
    intro r
    have hset := Processes.countP_set_add (p := fun party ↦ party.run = r && party.stage.won = some true)
      (a := { party with stage := .written invStatus true }) hparty
    have hold : decide (party.stage.won = some true) = false := by
      rw [hstage]
      rfl
    have hnew : decide ((PartyStage.written invStatus true).won = some true) = true := rfl
    simp only [hold, hnew, Bool.and_false, Bool.and_true, Bool.toNat_false] at hset
    have hchain : (system.tally (·.isChain r)) + system.unchained r ≤ _ := h.chain r
    have htallies := htally (·.isChain r) (.terminal party.run i)
    have htallyt := htally (·.isTerminal r) (.terminal party.run i)
    change (system.addEffect (.terminal party.run i)).tally _ + (system.parties.set i _).countP _ ≤
      (system.addEffect (.terminal party.run i)).tally _
    rw [htallies, htallyt]
    change _ + 0 + _ ≤ _ + (decide (party.run = r)).toNat
    unfold unchained at hchain
    omega
  case child =>
    intro r
    have hchildren : (system.runs.set party.run { run with status := status }).countP
        (·.chainParentId = some r) = system.children r := Processes.countP_set_of_eq hrun rfl
    change (system.runs.set party.run _).countP _ + system.uninserted r ≤
      (system.addEffect (.terminal party.run i)).tally _
    rw [htally, hchildren]
    exact h.child r
  case past =>
    intro other hother hpast
    refine (hafter other.run).trans ?_
    rcases List.mem_or_eq_of_mem_set hother with hold | rfl
    · rw [h.past other hold hpast, Bool.or_true]
    · rw [decide_eq_true rfl, Bool.true_or]
  case winner =>
    intro j other hother hwins
    refine mem_addEffect.2 ?_
    rcases Processes.getElem?_set_cases hother with ⟨rfl, rfl⟩ | ⟨-, hold⟩
    · exact .inr rfl
    · exact .inl (h.winner j other hold hwins)
  case fresh =>
    intro j other hother hfresh hmem
    rcases Processes.getElem?_set_cases hother with ⟨rfl, rfl⟩ | ⟨hne, hold⟩
    · exact absurd (Bool.and_eq_true_iff.1 hfresh).2 Bool.false_ne_true
    · rcases mem_addEffect.1 hmem with hbefore' | heq
      · exact h.fresh j other hold hfresh hbefore'
      · exact hne (FollowOn.terminal.inj heq).2
  case bounded =>
    intro r p hmem
    refine Nat.lt_of_lt_of_eq ?_ List.length_set.symm
    rcases mem_addEffect.1 hmem with hold | heq
    · exact h.bounded r p hold
    · cases heq
      exact (List.getElem?_eq_some_iff.1 hparty).1
  case signaller =>
    intro r p hmem
    refine mem_addEffect.2 (.inl ?_)
    rcases mem_addEffect.1 hmem with hold | heq
    · exact h.signaller r p hold
    · cases heq
  case chainer =>
    intro r p hmem
    refine mem_addEffect.2 (.inl ?_)
    rcases mem_addEffect.1 hmem with hold | heq
    · exact h.chainer r p hold
    · cases heq
  case sound =>
    intro other hother
    rcases List.mem_or_eq_of_mem_set hother with hold | rfl
    · exact h.sound other hold
    · trivial

/-- A signal or a chain child of the party whose terminal write succeeded. -/
theorem Settled.addEffect (h : system.Settled) {effect : FollowOn} {starts : List (ChainStart S)}
    (hnot : ∀ r, effect.isTerminal r = false)
    (hsignal : ∀ r, system.tally (·.isSignal r) + (effect.isSignal r).toNat + system.unsignalled r ≤
      system.tally (·.isTerminal r))
    (hchain : ∀ r, system.tally (·.isChain r) + (effect.isChain r).toNat + system.unchained r ≤
      system.tally (·.isTerminal r))
    (hchild : ∀ r, system.children r + (starts.countP fun start ↦ start.parent = r && !start.inserted) ≤
      system.tally (·.isChain r) + (effect.isChain r).toNat)
    (hwinner : ∀ r p, effect = .signal r p ∨ effect = .chain r p → .terminal r p ∈ system.effects) :
    ({ system.addEffect effect with starts := starts } : ChainSystem S).Settled := by
  have htally : ∀ p effect, (system.addEffect effect).tally p = system.tally p + (p effect).toNat :=
    tally_addEffect
  have hterminal : ∀ r, (system.addEffect effect).tally (·.isTerminal r) = system.tally (·.isTerminal r) := by
    intro r
    rw [htally, hnot]
    rfl
  have hold : ∀ {r p}, .terminal r p ∈ (system.addEffect effect).effects → .terminal r p ∈ system.effects := by
    intro r p hmem
    rcases mem_addEffect.1 hmem with hmem | rfl
    · exact hmem
    · exact absurd (hnot r) (by simp [FollowOn.isTerminal])
  constructor
  case terminal => exact fun r ↦ (hterminal r).trans (h.terminal r)
  case signal =>
    intro r
    change (system.addEffect effect).tally _ + system.unsignalled r ≤ (system.addEffect effect).tally _
    rw [hterminal, htally]
    exact hsignal r
  case chain =>
    intro r
    change (system.addEffect effect).tally _ + system.unchained r ≤ (system.addEffect effect).tally _
    rw [hterminal, htally]
    exact hchain r
  case child =>
    intro r
    change system.children r + _ ≤ (system.addEffect effect).tally _
    rw [htally]
    exact hchild r
  case past => exact h.past
  case winner => exact fun j other hother hwins ↦ mem_addEffect.2 (.inl (h.winner j other hother hwins))
  case fresh => exact fun j other hother hfresh hmem ↦ h.fresh j other hother hfresh (hold hmem)
  case bounded => exact fun r p hmem ↦ h.bounded r p (hold hmem)
  case signaller =>
    intro r p hmem
    refine mem_addEffect.2 (.inl ?_)
    rcases mem_addEffect.1 hmem with hbefore | heq
    · exact h.signaller r p hbefore
    · exact hwinner r p (.inl heq.symm)
  case chainer =>
    intro r p hmem
    refine mem_addEffect.2 (.inl ?_)
    rcases mem_addEffect.1 hmem with hbefore | heq
    · exact h.chainer r p hbefore
    · exact hwinner r p (.inr heq.symm)
  case sound => exact h.sound

theorem Settled.emit (h : system.Settled) (hparty : system.parties[i]? = some party)
    (hstage : party.stage = .written invStatus true) :
    ((system.addEffect (.signal party.run i)).move i party (.signalled invStatus true)).Settled := by
  have hquiet : system.Quiet party { party with stage := .signalled invStatus true } := by
    refine quiet_after ?_ rfl ?_ trivial
    · rw [hstage]
      rfl
    · rw [hstage]
      rfl
  have hmoved : (system.move i party (.signalled invStatus true)).Settled := h.quiet hparty hquiet rfl
  refine hmoved.addEffect (fun _ ↦ rfl) ?_ ?_ hmoved.child ?_
  · intro r
    have hset := Processes.countP_set_add (p := fun party ↦ party.run = r && party.stage.isUnsignalled)
      (a := { party with stage := .signalled invStatus true }) hparty
    have hold : party.stage.isUnsignalled = true := by
      rw [hstage]
      rfl
    have hnew : (PartyStage.signalled invStatus true).isUnsignalled = false := rfl
    simp only [hold, hnew, Bool.and_false, Bool.and_true, Bool.toNat_false] at hset
    have hsignal : system.tally (·.isSignal r) + system.unsignalled r ≤ _ := h.signal r
    change system.tally _ + (decide (party.run = r)).toNat + (system.parties.set i _).countP _ ≤ system.tally _
    unfold unsignalled at hsignal
    omega
  · exact hmoved.chain
  · intro r p heffect
    rcases heffect with heq | heq
    · cases heq
      refine h.winner i party hparty ?_
      rw [hstage]
      rfl
    · cases heq

theorem Settled.chained (h : system.Settled) {depth : ℕ} {schedule : S} (hparty : system.parties[i]? = some party)
    (hstage : party.stage = .finalized invStatus true) :
    ({ (system.addEffect (.chain party.run i)).move i party .ended with
      starts := system.starts ++ [⟨party.run, depth, schedule, false⟩] } : ChainSystem S).Settled := by
  have hmoved : (system.move i party .ended).Settled := h.quiet hparty quiet_ended rfl
  refine hmoved.addEffect (fun _ ↦ rfl) hmoved.signal ?_ ?_ ?_
  · intro r
    have hset := Processes.countP_set_add (p := fun party ↦ party.run = r && party.stage.won = some true)
      (a := { party with stage := .ended }) hparty
    have hold : decide (party.stage.won = some true) = true := by
      rw [hstage]
      rfl
    have hnew : decide (PartyStage.ended.won = some true) = false := rfl
    simp only [hold, hnew, Bool.and_false, Bool.and_true, Bool.toNat_false] at hset
    have hchain : system.tally (·.isChain r) + system.unchained r ≤ _ := h.chain r
    change system.tally _ + (decide (party.run = r)).toNat + (system.parties.set i _).countP _ ≤ system.tally _
    unfold unchained at hchain
    omega
  · intro r
    have hchild : system.children r + system.uninserted r ≤ _ := h.child r
    change system.children r + (system.starts ++ [_]).countP _ ≤ system.tally _ + (decide (party.run = r)).toNat
    rw [List.countP_append, List.countP_singleton]
    unfold uninserted at hchild
    cases hparent : decide (party.run = r)
    · simp only [Bool.false_and, Bool.false_eq_true, if_false, Bool.toNat_false]
      omega
    · simp only [Bool.not_false, Bool.and_self, if_true, Bool.toNat_true]
      omega
  · intro r p heffect
    rcases heffect with heq | heq
    · cases heq
    · cases heq
      refine h.winner i party hparty ?_
      rw [hstage]
      rfl

/-! ## Runs -/

theorem Settled.exec (h : system.Settled) {op : ChainOp} (hop : LoserEnds config system op) :
    (system.exec config op).Settled := by
  have hstep := exec_chainStep config system op
  generalize system.exec config op = system' at hstep ⊢
  cases hstep with
  | idle => exact h
  | fire => exact h.fire
  | insertChild hstart hinserted => exact h.insertChild hstart hinserted
  | scan => exact h.scan _
  | quiet hparty hquiet hkeys => exact h.quiet hparty hquiet hkeys
  | win hparty hstage hrun hrunning => exact h.win hparty hstage hrun hrunning
  | signal hparty hstage => exact h.emit hparty hstage
  | @chain i party run invStatus won schedule hparty hstage hrun haction hdepth =>
    cases won with
    | true => exact h.chained hparty hstage
    | false =>
      rcases hop party hparty run hrun invStatus hstage with hnone | hdeep
      · cases hnone.symm.trans haction
      · exact absurd hdepth (Nat.not_lt_of_le hdeep)

theorem Settled.terminal_le_one (h : system.Settled) (r : ℕ) : system.tally (·.isTerminal r) ≤ 1 := by
  rw [h.terminal r]
  exact Bool.toNat_le _

theorem Settled.followOnOnce (h : system.Settled) : system.FollowOnOnce where
  terminal r := h.terminal_le_one r
  settled party hmem hwon := by
    rw [h.terminal, h.past party hmem hwon]
    rfl
  signal r := Nat.le_trans (Nat.le_trans (Nat.le_add_right _ _) (h.signal r))
    (h.terminal_le_one r)
  signaller := h.signaller
  chainer := h.chainer
  child r := calc
    system.children r ≤ system.children r + system.uninserted r := Nat.le_add_right _ _
    _ ≤ system.tally (·.isChain r) := h.child r
    _ ≤ system.tally (·.isChain r) + system.unchained r := Nat.le_add_right _ _
    _ ≤ system.tally (·.isTerminal r) := h.chain r
    _ ≤ 1 := h.terminal_le_one r

/-- A launching engine that has lost the terminal write starts the chain child all the same. -/
theorem Settled.not_followOnOnce (h : system.Settled) {op : ChainOp} (hop : ¬ LoserEnds config system op) :
    ¬ (system.exec config op).FollowOnOnce := by
  cases op with
  | chain i =>
    intro honce
    apply hop
    intro party hparty run hrun invStatus hstage
    by_contra hchain
    rw [not_or, Nat.not_le] at hchain
    obtain ⟨haction, hdepth⟩ := hchain
    obtain ⟨schedule, haction⟩ := Option.ne_none_iff_exists'.1 haction
    have hexec : (system.exec config (.chain i)).effects = (system.addEffect (.chain party.run i)).effects := by
      rw [ChainSystem.exec, onParty, hparty]
      unfold ChainSystem.chain
      simp only [hstage, Option.mem_def.1 hrun, haction]
      rw [if_pos hdepth]
      rfl
    have hfresh : party.isFresh = true := by
      have hchains : party.role.chains = true := by
        unfold chainAction at haction
        split at haction
        · next schedule' hrole => rw [hrole]; rfl
        · cases haction
        · next hrole => rw [hrole]; rfl
      rw [Party.isFresh, hchains, hstage]
      rfl
    have hmem := honce.chainer party.run i (hexec ▸ mem_addEffect.2 (.inr rfl))
    rw [hexec] at hmem
    rcases mem_addEffect.1 hmem with hbefore | heq
    · exact h.fresh i party hparty hfresh hbefore
    · cases heq
  | _ => exact absurd trivial hop

theorem settled_empty : (ChainSystem.mk [] [] [] [] : ChainSystem S).Settled := by
  have hnone : ∀ (i : ℕ) (party : Party S), ([] : List (Party S))[i]? = some party → False := by
    intro i party h
    rw [List.getElem?_nil] at h
    cases h
  constructor
  case terminal => exact fun _ ↦ rfl
  case signal => exact fun _ ↦ Nat.le_refl 0
  case chain => exact fun _ ↦ Nat.le_refl 0
  case child => exact fun _ ↦ Nat.le_refl 0
  case past => exact fun _ h ↦ absurd h List.not_mem_nil
  case winner => exact fun i party h ↦ (hnone i party h).elim
  case fresh => exact fun i party h ↦ (hnone i party h).elim
  case bounded => exact fun _ _ h ↦ absurd h List.not_mem_nil
  case signaller => exact fun _ _ h ↦ absurd h List.not_mem_nil
  case chainer => exact fun _ _ h ↦ absurd h List.not_mem_nil
  case sound => exact fun _ h ↦ absurd h List.not_mem_nil

/-- The follow-on effects of every run happen once exactly if no launching engine comes to a chain child for
its outcome after its terminal write was refused. -/
theorem followOnOnce_throughout_iff (config : ChainConfig S) (ops : List ChainOp) :
    Transition.Throughout (exec config) FollowOnOnce (ChainSystem.mk [] [] [] [] : ChainSystem S) ops ↔
      Transition.Along (exec config) (LoserEnds config) (ChainSystem.mk [] [] [] [] : ChainSystem S) ops := by
  apply Transition.throughout_iff_along (I := Settled)
  · exact fun _ h ↦ h.followOnOnce
  · exact fun _ _ h hop ↦ h.exec hop
  · exact fun _ _ h hop ↦ h.not_followOnOnce hop
  · exact settled_empty

/-- A schedule that chains itself, once it has succeeded. -/
def chained : ChainConfig Unit := ⟨some, fun _ ↦ none, ()⟩

/-- A reconciliation finalizes a run and starts its chain child, before the engine that has launched it does
so too. -/
theorem not_followOnOnce_throughout : ¬ Transition.Throughout (exec chained) FollowOnOnce
    (ChainSystem.mk [] [] [] []) [.fire, .launch 0, .exit 0 0, .scan 0, .resolve 1 "completed", .write 1,
      .signal 1, .finalize 1, .chain 1, .insertChild 0, .resolve 0 "completed", .write 0, .signal 0,
      .finalize 0, .chain 0, .insertChild 1] := by
  intro h
  exact absurd (h.final.child 0) (by decide +kernel)

end ChainSystem

end Lionagi.Scheduler
