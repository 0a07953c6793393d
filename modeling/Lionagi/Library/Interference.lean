import Lionagi.Library.Processes
import Lionagi.Library.Transition

/-!
# Calls under interference

A routine reaches the state it shares with others one access at a time, and between two accesses the others
may change that state, as far as a relation allows. A rule about a routine speaks of the states it has seen; it
says what each access may change and what is known when the routine ends. The rules compose like the routines,
and hold of every call in every interleaving.
-/

universe u v w x

namespace Interference

/-- A routine ends, or changes the shared state and goes on with what it saw. -/
inductive Routine (σ : Type u) (ε : Type v) (α : Type w) where
  | done (result : Except ε α)
  | access (change : σ → σ) (next : σ → Routine σ ε α)

/-- The accesses of a call, the latest first, each with the state before and after it. -/
abbrev History (σ : Type u) := List (σ × σ)

namespace Routine

variable {σ : Type u} {ε : Type v} {α β : Type w}

def bind : Routine σ ε α → (α → Routine σ ε β) → Routine σ ε β
  | .done (.ok a), k => k a
  | .done (.error e), _ => .done (.error e)
  | .access change next, k => .access change fun s ↦ bind (next s) k

/-- An exception is handed to the handler. -/
def handle : Routine σ ε α → (ε → Routine σ ε α) → Routine σ ε α
  | .done (.ok a), _ => .done (.ok a)
  | .done (.error e), k => k e
  | .access change next, k => .access change fun s ↦ handle (next s) k

instance : Monad (Routine σ ε) where
  pure a := .done (.ok a)
  bind := bind

instance : MonadExcept ε (Routine σ ε) where
  throw e := .done (.error e)
  tryCatch := handle

/-- One look at the shared state. -/
def look (f : σ → Except ε α) : Routine σ ε α := .access id fun s ↦ .done (f s)

/-- One change of the shared state. -/
def update (f : σ → σ) : Routine σ ε PUnit := .access f fun _ ↦ .done (.ok ⟨⟩)

/-- One change of the shared state whose result depends on it. -/
def act (f : σ → σ) (g : σ → Except ε α) : Routine σ ε α := .access f fun s ↦ .done (g s)

/-- What remains is done by other means than accesses. -/
def lift (x : Except ε α) : Routine σ ε α := .done x

/-- The accesses without interference: the state, the history and the result at the end. -/
def alone : Routine σ ε α → σ → History σ → σ × History σ × Except ε α
  | .done result, s, past => (s, past, result)
  | .access change next, s, past => alone (next s) (change s) ((s, change s) :: past)

end Routine

open Routine

/-- The state was seen by one of the accesses. -/
def Saw {σ : Type u} (past : History σ) (s : σ) : Prop := ∃ t, (s, t) ∈ past

theorem Saw.mono {σ : Type u} {past past' : History σ} {s : σ} (h : Saw past s) (hpast : past <:+ past') :
    Saw past' s := by
  obtain ⟨t, ht⟩ := h
  exact ⟨t, hpast.subset ht⟩

theorem saw_head {σ : Type u} (s t : σ) (past : History σ) : Saw ((s, t) :: past) s :=
  ⟨t, List.mem_cons_self⟩

/-! ## Rules -/

section Rules

variable {σ : Type u} {ε : Type v} {α β : Type w}

/-- The state can follow what was seen last. -/
def Follows {σ : Type u} (R : σ → σ → Prop) : History σ → σ → Prop
  | [], _ => True
  | (_, t) :: _, s => R t s

/-- As long as the others keep `I` and change as `R` allows, the routine does so too, each access after the
past is one of `G`, and the routine ends as `Q` says. -/
def Safe (I : σ → Prop) (R : σ → σ → Prop) (G : History σ → σ → σ → Prop)
    (Q : History σ → Except ε α → Prop) : History σ → Routine σ ε α → Prop
  | past, .done result => Q past result
  | past, .access change next => ∀ s, I s → Follows R past s →
      I (change s) ∧ R s (change s) ∧ G past s (change s) ∧ Safe I R G Q ((s, change s) :: past) (next s)

variable {I : σ → Prop} {R : σ → σ → Prop} {G : History σ → σ → σ → Prop} {past : History σ}
variable {Q Q' : History σ → Except ε α → Prop} {p : Routine σ ε α}

theorem Safe.weaken (h : Safe I R G Q past p) (hQ : ∀ past' result, past <:+ past' → Q past' result → Q' past' result) :
    Safe I R G Q' past p := by
  induction p generalizing past with
  | done result => exact hQ past result List.suffix_rfl h
  | access change next ih =>
    intro s hs hfollows
    obtain ⟨hI, hR, hstep, hnext⟩ := h s hs hfollows
    have hlonger : past <:+ (s, change s) :: past := List.suffix_cons _ _
    exact ⟨hI, hR, hstep, ih s hnext fun past' result hpast ↦ hQ past' result (hlonger.trans hpast)⟩

variable {k : α → Routine σ ε β}

theorem Safe.bind {Q' : History σ → Except ε β → Prop} (h : Safe I R G Q past p)
    (hok : ∀ past' a, past <:+ past' → Q past' (.ok a) → Safe I R G Q' past' (k a))
    (herror : ∀ past' e, past <:+ past' → Q past' (.error e) → Q' past' (.error e)) : Safe I R G Q' past (p >>= k) := by
  induction p generalizing past with
  | done result =>
    cases result with
    | ok a => exact hok past a List.suffix_rfl h
    | error e => exact herror past e List.suffix_rfl h
  | access change next ih =>
    intro s hs hfollows
    obtain ⟨hI, hR, hstep, hnext⟩ := h s hs hfollows
    have hlonger : past <:+ (s, change s) :: past := List.suffix_cons _ _
    exact ⟨hI, hR, hstep, ih s hnext (fun past' a hpast ↦ hok past' a (hlonger.trans hpast))
      fun past' e hpast ↦ herror past' e (hlonger.trans hpast)⟩

theorem Safe.handle {k : ε → Routine σ ε α} (h : Safe I R G Q past p)
    (hok : ∀ past' a, past <:+ past' → Q past' (.ok a) → Q' past' (.ok a))
    (herror : ∀ past' e, past <:+ past' → Q past' (.error e) → Safe I R G Q' past' (k e)) :
    Safe I R G Q' past (tryCatch p k) := by
  induction p generalizing past with
  | done result =>
    cases result with
    | ok a => exact hok past a List.suffix_rfl h
    | error e => exact herror past e List.suffix_rfl h
  | access change next ih =>
    intro s hs hfollows
    obtain ⟨hI, hR, hstep, hnext⟩ := h s hs hfollows
    have hlonger : past <:+ (s, change s) :: past := List.suffix_cons _ _
    exact ⟨hI, hR, hstep, ih s hnext (fun past' a hpast ↦ hok past' a (hlonger.trans hpast))
      fun past' e hpast ↦ herror past' e (hlonger.trans hpast)⟩

theorem safe_pure {a : α} (h : Q past (.ok a)) :
    Safe I R G Q past (pure a) := h

theorem safe_throw {e : ε} (h : Q past (.error e)) :
    Safe I R G Q past (throw e) := h

variable {f : σ → Except ε α}

theorem safe_look (hR : ∀ s, R s s) (hG : ∀ s, I s → G past s s)
    (hQ : ∀ s, I s → Follows R past s → Q ((s, s) :: past) (f s)) : Safe I R G Q past (look f) :=
  fun s hs hfollows ↦ ⟨hs, hR s, hG s hs, hQ s hs hfollows⟩

theorem safe_act {f : σ → σ} {g : σ → Except ε α}
    (h : ∀ s, I s → Follows R past s → I (f s) ∧ R s (f s) ∧ G past s (f s) ∧ Q ((s, f s) :: past) (g s)) :
    Safe I R G Q past (act f g) := h

theorem safe_update {Q : History σ → Except ε PUnit → Prop} {f : σ → σ}
    (h : ∀ s, I s → Follows R past s →
      I (f s) ∧ R s (f s) ∧ G past s (f s) ∧ Q ((s, f s) :: past) (.ok ⟨⟩)) : Safe I R G Q past (update f) := h

/-! ## Routines that only read -/

/-- The routine changes nothing, and ends as `Q` says of what it has seen. -/
def Finds (Q : History σ → Except ε α → Prop) : History σ → Routine σ ε α → Prop :=
  Safe (fun _ ↦ True) (fun _ _ ↦ True) (fun _ s t ↦ t = s) Q

theorem finds_look (hQ : ∀ s, Q ((s, s) :: past) (f s)) : Finds Q past (look f) :=
  safe_look (fun _ ↦ trivial) (fun _ _ ↦ rfl) fun s _ _ ↦ hQ s

/-- A reading routine is safe wherever looking is allowed. -/
theorem Finds.safe (h : Finds Q past p) (hR : ∀ s, R s s) (hG : ∀ past' s, past <:+ past' → I s → G past' s s) :
    Safe I R G Q past p := by
  induction p generalizing past with
  | done result => exact h
  | access change next ih =>
    intro s hs hfollows
    obtain ⟨-, -, hsame, hnext⟩ := h s trivial (by cases past <;> trivial)
    have hlonger : past <:+ (s, change s) :: past := List.suffix_cons _ _
    refine ⟨?_, ?_, ?_, ih s hnext fun past' s hpast ↦ hG past' s (hlonger.trans hpast)⟩
    · rw [hsame]
      exact hs
    · rw [hsame]
      exact hR s
    · rw [hsame]
      exact hG past s List.suffix_rfl hs

/-- The routine changes nothing. -/
def Reads (p : Routine σ ε α) : Prop := ∀ past, Finds (fun _ _ ↦ True) past p

theorem reads_pure (a : α) : Reads (pure a : Routine σ ε α) := fun _ ↦ trivial

theorem reads_look (f : σ → Except ε α) : Reads (look f) := fun _ ↦ finds_look fun _ ↦ trivial

theorem Reads.bind (hp : Reads p) (hk : ∀ a, Reads (k a)) : Reads (p >>= k) :=
  fun past ↦ Safe.bind (hp past) (fun past' a _ _ ↦ hk a past') fun _ _ _ _ ↦ trivial

theorem Finds.reads (h : ∀ past, Finds Q past p) : Reads p :=
  fun past ↦ Safe.weaken (h past) fun _ _ _ _ ↦ trivial

/-- Without interference, what the accesses preserve holds of every state that is seen. -/
theorem alone_seen {P : σ → Prop} {s : σ} (h : Safe I R G Q past p) (hrefl : ∀ s, R s s)
    (hG : ∀ past s t, G past s t → P s → P t) (hI : I s) (hfollows : Follows R past s) (hs : P s)
    (hpast : ∀ t, Saw past t → P t) : ∀ t, Saw (p.alone s past).2.1 t → P t := by
  induction p generalizing past s with
  | done result => exact hpast
  | access change next ih =>
    obtain ⟨hI', -, hstep, hnext⟩ := h s hI hfollows
    refine ih s hnext hI' (hrefl _) (hG past s _ hstep hs) fun t ht ↦ ?_
    obtain ⟨u, hu⟩ := ht
    rcases List.mem_cons.1 hu with heq | hu
    · cases heq
      exact hs
    · exact hpast t ⟨u, hu⟩

end Rules

/-! ## Interleavings -/

section System

variable {κ : Type x} {σ : Type u} {ε : Type v} {α : Type w}

/-- A call with its arguments, what is left of it and what it has done. -/
structure Call (κ : Type x) (σ : Type u) (ε : Type v) (α : Type w) where
  arguments : κ
  routine : Routine σ ε α
  past : History σ

structure System (κ : Type x) (σ : Type u) (ε : Type v) (α : Type w) where
  shared : σ
  calls : List (Call κ σ ε α)

/-- The state is changed from outside, a call begins, or a call makes its next access. -/
inductive Step (outside : σ → σ → Prop) (body : κ → Routine σ ε α) :
    System κ σ ε α → Option ℕ → System κ σ ε α → Prop where
  | outside {sys : System κ σ ε α} {s : σ} (h : outside sys.shared s) :
      Step outside body sys none ⟨s, sys.calls⟩
  | start {sys : System κ σ ε α} (arguments : κ) :
      Step outside body sys none ⟨sys.shared, sys.calls ++ [⟨arguments, body arguments, []⟩]⟩
  | access {sys : System κ σ ε α} {i : ℕ} {call : Call κ σ ε α} {change : σ → σ}
      {next : σ → Routine σ ε α} (hcall : sys.calls[i]? = some call)
      (hroutine : call.routine = .access change next) :
      Step outside body sys (some i) ⟨change sys.shared, sys.calls.set i
        ⟨call.arguments, next sys.shared, (sys.shared, change sys.shared) :: call.past⟩⟩

/-- Each access was one of `G` after what came before it. -/
def Kept (G : History σ → σ → σ → Prop) : History σ → Prop
  | [] => True
  | (s, t) :: past => G past s t ∧ Kept G past

variable {past : History σ}

theorem Kept.imp {G G' : History σ → σ → σ → Prop} (h : Kept G past)
    (hG : ∀ past' s t, (s, t) :: past' <:+ past → G past' s t → G' past' s t) : Kept G' past := by
  induction past with
  | nil => trivial
  | cons entry past ih =>
    exact ⟨hG past entry.1 entry.2 List.suffix_rfl h.1,
      ih h.2 fun past' s t hpast ↦ hG past' s t (hpast.trans (List.suffix_cons _ _))⟩

variable {outside : σ → σ → Prop} {body : κ → Routine σ ε α} {I : σ → Prop} {R : σ → σ → Prop}
  {G : κ → History σ → σ → σ → Prop} {Q : κ → History σ → Except ε α → Prop}

/-- Every call has kept to the rule and will keep to it. -/
structure Ruled (I : σ → Prop) (R : σ → σ → Prop) (G : κ → History σ → σ → σ → Prop)
    (Q : κ → History σ → Except ε α → Prop) (sys : System κ σ ε α) : Prop where
  shared : I sys.shared
  follows : ∀ (i : ℕ) (call : Call κ σ ε α), sys.calls[i]? = some call → Follows R call.past sys.shared
  kept : ∀ (i : ℕ) (call : Call κ σ ε α), sys.calls[i]? = some call → Kept (G call.arguments) call.past
  safe : ∀ (i : ℕ) (call : Call κ σ ε α), sys.calls[i]? = some call →
    Safe I R (G call.arguments) (Q call.arguments) call.past call.routine

variable {s : σ}

theorem Follows.trans (htrans : ∀ s t u, R s t → R t u → R s u) {t : σ} (h : Follows R past s) (hst : R s t) :
    Follows R past t := by
  cases past with
  | nil => trivial
  | cons entry past => exact htrans entry.2 s t h hst

variable {sys : System κ σ ε α}

theorem Ruled.step (htrans : ∀ s t u, R s t → R t u → R s u) (hrefl : ∀ s, R s s)
    (houtside : ∀ s t, I s → outside s t → I t ∧ R s t) (hbody : ∀ k, Safe I R (G k) (Q k) [] (body k))
    {sys' : System κ σ ε α} {l : Option ℕ} (h : Ruled I R G Q sys) (hstep : Step outside body sys l sys') :
    Ruled I R G Q sys' := by
  cases hstep with
  | outside hchange =>
    obtain ⟨hI, hR⟩ := houtside _ _ h.shared hchange
    exact ⟨hI, fun j call hj ↦ (h.follows j call hj).trans htrans hR, h.kept, h.safe⟩
  | start arguments =>
    refine ⟨h.shared, fun j call hj ↦ ?_, fun j call hj ↦ ?_, fun j call hj ↦ ?_⟩
    · rcases Processes.getElem?_concat_cases hj with ⟨-, rfl⟩ | hj
      · exact trivial
      · exact h.follows j call hj
    · rcases Processes.getElem?_concat_cases hj with ⟨-, rfl⟩ | hj
      · exact trivial
      · exact h.kept j call hj
    · rcases Processes.getElem?_concat_cases hj with ⟨-, rfl⟩ | hj
      · exact hbody arguments
      · exact h.safe j call hj
  | @access i call change next hcall hroutine =>
    have hsafe := h.safe i call hcall
    rw [hroutine] at hsafe
    obtain ⟨hI, hR, hG, hnext⟩ := hsafe sys.shared h.shared (h.follows i call hcall)
    refine ⟨hI, fun j call' hj ↦ ?_, fun j call' hj ↦ ?_, fun j call' hj ↦ ?_⟩
    · rcases Processes.getElem?_set_cases hj with ⟨-, rfl⟩ | ⟨-, hj⟩
      · exact hrefl _
      · exact (h.follows j call' hj).trans htrans hR
    · rcases Processes.getElem?_set_cases hj with ⟨-, rfl⟩ | ⟨-, hj⟩
      · exact ⟨hG, h.kept i call hcall⟩
      · exact h.kept j call' hj
    · rcases Processes.getElem?_set_cases hj with ⟨-, rfl⟩ | ⟨-, hj⟩
      · exact hnext
      · exact h.safe j call' hj

/-- In every interleaving every call keeps to the rule. -/
theorem ruled_of_reachable (htrans : ∀ s t u, R s t → R t u → R s u) (hrefl : ∀ s, R s s)
    (houtside : ∀ s t, I s → outside s t → I t ∧ R s t) (hbody : ∀ k, Safe I R (G k) (Q k) [] (body k)) (hinit : I s)
    (h : Transition.Reachable (Step outside body) ⟨s, []⟩ sys) : Ruled I R G Q sys :=
  h.invariant (I := Ruled I R G Q)
    ⟨hinit, fun _ _ hi ↦ by simp at hi, fun _ _ hi ↦ by simp at hi, fun _ _ hi ↦ by simp at hi⟩
    fun _ _ _ hruled ↦ hruled.step htrans hrefl houtside hbody

/-- A call that has ended has ended as the rule says. -/
theorem Ruled.result (h : Ruled I R G Q sys) {i : ℕ} {call : Call κ σ ε α} (hcall : sys.calls[i]? = some call)
    {result : Except ε α} (hdone : call.routine = .done result) : Q call.arguments call.past result := by
  have hsafe := h.safe i call hcall
  rw [hdone] at hsafe
  exact hsafe

/-- A call may run to its end without interference. -/
theorem reachable_alone {start : System κ σ ε α} (k : κ) (h : Transition.Reachable (Step outside body) start sys) :
    Transition.Reachable (Step outside body) start
      ⟨((body k).alone sys.shared []).1, sys.calls ++
        [⟨k, .done ((body k).alone sys.shared []).2.2, ((body k).alone sys.shared []).2.1⟩]⟩ := by
  have hrun : ∀ (p : Routine σ ε α) (s : σ) (past : History σ),
      Transition.Reachable (Step outside body) start ⟨s, sys.calls ++ [⟨k, p, past⟩]⟩ →
        Transition.Reachable (Step outside body) start ⟨(p.alone s past).1, sys.calls ++
          [⟨k, .done (p.alone s past).2.2, (p.alone s past).2.1⟩]⟩ := by
    intro p
    induction p with
    | done result =>
      intro s past hreach
      exact hreach
    | access change next ih =>
      intro s past hreach
      have hlast : (sys.calls ++ [(⟨k, .access change next, past⟩ : Call κ σ ε α)])[sys.calls.length]? =
          some ⟨k, .access change next, past⟩ := by simp
      have hset := hreach.step (.access hlast rfl)
      rw [List.set_append_right _ _ (Nat.le_refl _), Nat.sub_self, List.set_cons_zero] at hset
      exact ih s (change s) _ hset
  exact hrun (body k) sys.shared [] (h.step (.start k))

/-- A call that has run to its end alone. -/
def finished (body : κ → Routine σ ε α) (s : σ) (k : κ) : Call κ σ ε α :=
  ⟨k, .done ((body k).alone s []).2.2, ((body k).alone s []).2.1⟩

/-- The system in which the only call has run alone. -/
def solo (body : κ → Routine σ ε α) (s : σ) (k : κ) : System κ σ ε α :=
  ⟨((body k).alone s []).1, [finished body s k]⟩

theorem reachable_solo (s : σ) (k : κ) :
    Transition.Reachable (Step outside body) ⟨s, []⟩ (solo body s k) :=
  reachable_alone k .start

/-- What the accesses preserve holds of every state that a call saw which ran alone. -/
theorem seen_of_finished {P : σ → Prop} {k : κ} {G : History σ → σ → σ → Prop} {Q : History σ → Except ε α → Prop}
    (h : Safe I R G Q [] (body k)) (hrefl : ∀ s, R s s) (hG : ∀ past s t, G past s t → P s → P t) (hI : I s) (hs : P s)
    {t : σ} (ht : Saw (finished body s k).past t) : P t :=
  alone_seen h hrefl hG hI trivial hs (fun _ hsaw ↦ absurd hsaw.choose_spec List.not_mem_nil) t ht

end System

end Interference
