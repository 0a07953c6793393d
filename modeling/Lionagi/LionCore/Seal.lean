import Lionagi.Library.ByteBuffer
import Lionagi.Library.Transition
import Lionagi.LionCore.KernelDispatch

/-!
# Seals and the rotation of their key

A payload is serialized into 64 bytes, of which a seal is made with the current key. Different payloads have
different bytes. After a rotation the previous key still verifies, until it is cleared or the key is rotated again.
-/

namespace Lionagi.LionCore

open ByteBuffer Transition

/-! ## Serialization -/

/-- The widths of the fields: `u128` for identifiers and `u64` for the epoch. -/
structure CapPayload.InRange (payload : CapPayload) : Prop where
  holder : payload.holder < 2 ^ 128
  target : payload.target < 2 ^ 128
  parent : ∀ p, payload.parent = some p → p < 2 ^ 128
  epoch : payload.epoch < 2 ^ 64

/-- Zero for none and `id + 1` for an identifier; `none` is the panic of the checked addition. -/
def parentVal (payload : CapPayload) : Option ℕ :=
  match payload.parent with
  | none => some 0
  | some p => if p + 1 < 2 ^ 128 then some (p + 1) else none

/-- `none` is a panic. -/
def serializePayload (payload : CapPayload) : Option (List UInt8) := do
  let data ← copyInto 0 16 (toLeBytes 16 payload.holder) (List.replicate 64 0)
  let data ← copyInto 16 32 (toLeBytes 16 payload.target) data
  let data ← copyInto 32 40 (toLeBytes 8 payload.epoch) data
  let parent ← parentVal payload
  let data ← copyInto 40 56 (toLeBytes 16 parent) data
  copyInto 56 64 (toLeBytes 8 payload.rights.bits.toNat) data

/-- The five slices lie side by side and cover the buffer. -/
theorem serializePayload_eq (payload : CapPayload) : serializePayload payload = (parentVal payload).map fun parent ↦
    toLeBytes 16 payload.holder ++ toLeBytes 16 payload.target ++ toLeBytes 8 payload.epoch ++
      toLeBytes 16 parent ++ toLeBytes 8 payload.rights.bits.toNat := by
  have hholder : copyInto 0 16 (toLeBytes 16 payload.holder) (List.replicate 64 0) =
      some (toLeBytes 16 payload.holder ++ List.replicate 48 0) := by
    have hfirst : copyInto 0 16 (toLeBytes 16 payload.holder) ([] ++ List.replicate 64 0) =
        some ([] ++ toLeBytes 16 payload.holder ++ (List.replicate 64 0).drop (toLeBytes 16 payload.holder).length) :=
      copyInto_append rfl (by simp) (by simp)
    rwa [length_toLeBytes, List.drop_replicate, List.nil_append, List.nil_append] at hfirst
  have htarget : copyInto 16 32 (toLeBytes 16 payload.target) (toLeBytes 16 payload.holder ++ List.replicate 48 0) =
      some (toLeBytes 16 payload.holder ++ toLeBytes 16 payload.target ++ List.replicate 32 0) := by
    rw [copyInto_append (by simp) (by simp) (by simp), length_toLeBytes, List.drop_replicate]
  have hepoch : copyInto 32 40 (toLeBytes 8 payload.epoch)
      (toLeBytes 16 payload.holder ++ toLeBytes 16 payload.target ++ List.replicate 32 0) =
        some (toLeBytes 16 payload.holder ++ toLeBytes 16 payload.target ++ toLeBytes 8 payload.epoch ++
          List.replicate 24 0) := by
    rw [copyInto_append (by simp) (by simp) (by simp), length_toLeBytes, List.drop_replicate]
  simp only [serializePayload, hholder, htarget, hepoch, Option.bind_eq_bind, Option.bind_some]
  cases parentVal payload with
  | none => rfl
  | some parent =>
    simp only [Option.bind_some, Option.map_some]
    rw [copyInto_append (by simp) (by simp) (by simp), Option.bind_some, length_toLeBytes,
      List.drop_replicate, copyInto_append (by simp) (by simp) (by simp), length_toLeBytes, List.drop_replicate,
      List.replicate_zero, List.append_nil]

variable {payload : CapPayload}

theorem parentVal_eq_none_iff (h : payload.InRange) :
    parentVal payload = none ↔ payload.parent = some (2 ^ 128 - 1) := by
  unfold parentVal
  cases hparent : payload.parent with
  | none => simp
  | some p =>
    have hiff : p = 2 ^ 128 - 1 ↔ ¬ p + 1 < 2 ^ 128 :=
      ⟨fun heq ↦ by rw [heq]; decide, fun hfull ↦ Nat.le_antisymm (Nat.le_sub_one_of_lt (h.parent p hparent))
        (Nat.sub_le_of_le_add (Nat.le_of_not_lt hfull))⟩
    rw [Option.some.injEq, hiff]
    dsimp only
    split
    · next hfits => exact iff_of_false (by simp) (not_not.2 hfits)
    · next hfull => exact iff_of_true rfl hfull

theorem parentVal_lt {n : ℕ} (h : parentVal payload = some n) : n < 2 ^ 128 := by
  unfold parentVal at h
  split at h
  · cases h
    decide
  · split at h
    · next hfits =>
      cases h
      exact hfits
    · cases h

theorem parentVal_inj {p q : CapPayload} {n : ℕ} (hp : parentVal p = some n) (hq : parentVal q = some n) :
    p.parent = q.parent := by
  unfold parentVal at hp hq
  cases hparent : p.parent with
  | none =>
    rw [hparent] at hp
    cases hp
    cases hother : q.parent with
    | none => rfl
    | some b =>
      rw [hother] at hq
      dsimp only at hq
      split at hq <;> cases hq
  | some a =>
    rw [hparent] at hp
    dsimp only at hp
    split at hp
    · cases hp
      cases hother : q.parent with
      | none =>
        rw [hother] at hq
        cases hq
      | some b =>
        rw [hother] at hq
        dsimp only at hq
        split at hq
        · exact congrArg some (Nat.succ.inj (Option.some.inj hq)).symm
        · cases hq
    · cases hp

theorem Rights.eq_of_bits {rights other : Rights} (h : rights.bits = other.bits) : rights = other := by
  cases rights
  cases other
  cases h
  rfl

/-- Payloads with the same bytes are the same, and the only payload that cannot be serialized is one whose
parent is the largest identifier. -/
theorem serializePayload_separates :
    (∀ p q : CapPayload, p.InRange → q.InRange → p.parent ≠ some (2 ^ 128 - 1) → q.parent ≠ some (2 ^ 128 - 1) →
      serializePayload p = serializePayload q → p = q) ∧
      ∀ p : CapPayload, p.InRange → (serializePayload p = none ↔ p.parent = some (2 ^ 128 - 1)) := by
  constructor
  · intro p q hp hq hmax _ h
    rw [serializePayload_eq, serializePayload_eq] at h
    obtain ⟨n, hn⟩ : ∃ n, parentVal p = some n :=
      Option.ne_none_iff_exists'.1 fun hnone ↦ hmax ((parentVal_eq_none_iff hp).1 hnone)
    rw [hn, Option.map_some] at h
    obtain ⟨m, hm, hbytes⟩ := Option.map_eq_some_iff.1 h.symm
    obtain ⟨hrest, hrights⟩ := List.append_inj' hbytes (by simp)
    obtain ⟨hrest, hparent⟩ := List.append_inj' hrest (by simp)
    obtain ⟨hrest, hepoch⟩ := List.append_inj' hrest (by simp)
    obtain ⟨hholder, htarget⟩ := List.append_inj' hrest (by simp)
    have hnm : m = n := (toLeBytes_inj (parentVal_lt hm) (parentVal_lt hn)).1 hparent
    have hbits : q.rights.bits.toNat = p.rights.bits.toNat :=
      (toLeBytes_inj (q.rights.bits.isLt.trans (by decide)) (p.rights.bits.isLt.trans (by decide))).1 hrights
    have hholder := (toLeBytes_inj hq.holder hp.holder).1 hholder
    have htarget := (toLeBytes_inj hq.target hp.target).1 htarget
    have hepoch := (toLeBytes_inj hq.epoch hp.epoch).1 hepoch
    have hrights := Rights.eq_of_bits (BitVec.eq_of_toNat_eq hbits)
    have hparent := parentVal_inj (hnm ▸ hm) hn
    cases p
    cases q
    simp only [CapPayload.mk.injEq]
    exact ⟨hholder.symm, htarget.symm, hrights.symm, hparent.symm, hepoch.symm⟩
  · intro p hp
    rw [serializePayload_eq, Option.map_eq_none_iff]
    exact parentVal_eq_none_iff hp

section Payloads

/-- A payload that reads one target. -/
def readPayload (parent : Option CapId) : CapPayload where
  holder := 1
  target := 100
  rights := Rights.singleton .read
  parent := parent
  epoch := 0

theorem inRange_readPayload {parent : Option CapId} (h : ∀ p, parent = some p → p < 2 ^ 128) :
    (readPayload parent).InRange where
  holder := show 1 < 2 ^ 128 by decide
  target := show 100 < 2 ^ 128 by decide
  parent := h
  epoch := show 0 < 2 ^ 64 by decide

/-- No parent and the parent 0 are told apart, and the largest parent cannot be serialized. -/
theorem serializePayload_separates_readPayload :
    serializePayload (readPayload none) ≠ serializePayload (readPayload (some 0)) ∧
      serializePayload (readPayload (some (2 ^ 128 - 1))) = none := by
  have hnone : (readPayload none).InRange := inRange_readPayload fun p hp ↦ by cases hp
  have hzero : (readPayload (some 0)).InRange := inRange_readPayload fun p hp ↦ by cases hp; decide
  have hmax : (readPayload (some (2 ^ 128 - 1))).InRange := inRange_readPayload fun p hp ↦ by cases hp; decide
  constructor
  · intro h
    have heq := serializePayload_separates.1 _ _ hnone hzero (by simp [readPayload]) (by simp [readPayload]) h
    exact absurd (congrArg CapPayload.parent heq) (by simp [readPayload])
  · exact (serializePayload_separates.2 _ hmax).2 rfl

end Payloads

/-! ## Seals -/

section Seals

-- HMAC under a key
variable {τ : Type} [DecidableEq τ] (hmac : Key → List UInt8 → τ)

def sealPayload (key : Key) (payload : CapPayload) : Option τ := (serializePayload payload).map (hmac key)

def verifySeal (key : Key) (payload : CapPayload) (tag : τ) : Option Bool :=
  (serializePayload payload).map fun data ↦ decide (hmac key data = tag)

namespace KeyState

/-- The overflow is checked first; nothing else differs from `rotate`. -/
def rotated (keyState : KeyState) (newKey : Key) : Option KeyState := do
  let epoch ← checkedAdd keyState.epoch 1
  return { current := newKey, epoch, previous := some keyState.current, previousEpoch := some keyState.epoch }

/-- The epoch is the current one or newer, or not older than the previous one. -/
def epochValid (keyState : KeyState) (capEpoch : ℕ) : Bool :=
  if keyState.epoch ≤ capEpoch then true
  else
    match keyState.previousEpoch with
    | some prevEpoch => decide (prevEpoch ≤ capEpoch)
    | none => false

/-- The current key first, then the previous one. -/
def verifySeal (keyState : KeyState) (payload : CapPayload) (tag : τ) : Option Bool := do
  let verified ← LionCore.verifySeal hmac keyState.current payload tag
  if verified then return true
  else
    match keyState.previous with
    | some prevKey => LionCore.verifySeal hmac prevKey payload tag
    | none => return false

def verifyWithEpoch (keyState : KeyState) (payload : CapPayload) (tag : τ) (capEpoch : ℕ) : Option Bool :=
  if keyState.epochValid capEpoch then keyState.verifySeal hmac payload tag else some false

def clearPrevious (keyState : KeyState) : KeyState := { keyState with previous := none, previousEpoch := none }

end KeyState

/-! ## Rotation -/

inductive KeyOp where
  | rotate (newKey : Key)
  | clearPrevious

namespace KeyOp

def apply (keyState : KeyState) : KeyOp → Option KeyState
  | rotate newKey => keyState.rotate newKey
  | clearPrevious => some keyState.clearPrevious

/-- The keys that come into use, in order. -/
def newKeys : List KeyOp → List Key
  | [] => []
  | rotate newKey :: ops => newKey :: newKeys ops
  | clearPrevious :: ops => newKeys ops

/-- The previous key has been cleared since the last rotation. -/
def cleared : Bool → List KeyOp → Bool
  | since, [] => since
  | _, rotate _ :: ops => cleared false ops
  | _, clearPrevious :: ops => cleared true ops

end KeyOp

open KeyOp

/-- The keys and the epochs of a state that came from the keys in use so far: the current key is the last of
them, and the previous key and epoch are the ones before, unless they were cleared. -/
structure Aligned (keys : List Key) (since : Bool) (keyState : KeyState) : Prop where
  epoch : keyState.epoch + 1 = keys.length
  current : keys[keyState.epoch]? = some keyState.current
  window : (keyState.previous = none ∧ keyState.previousEpoch = none ∧ (keyState.epoch = 0 ∨ since = true)) ∨
    ∃ (epoch : ℕ) (prevKey : Key), keyState.previous = some prevKey ∧ keyState.previousEpoch = some epoch ∧
      keyState.epoch = epoch + 1 ∧ keys[epoch]? = some prevKey ∧ since = false

theorem aligned_initial (key : Key) : Aligned [key] false (KeyState.initial key) :=
  ⟨rfl, rfl, .inl ⟨rfl, rfl, .inl rfl⟩⟩

/-- The state after a run is aligned with the keys that came into use before and in it. -/
theorem Aligned.replay {keys : List Key} {since : Bool} {s t : KeyState} (h : Aligned keys since s)
    {ops : List KeyOp} (ht : replay KeyOp.apply s ops = some t) :
    Aligned (keys ++ newKeys ops) (cleared since ops) t := by
  induction ops generalizing keys since s with
  | nil =>
    cases ht
    rw [newKeys, List.append_nil]
    exact h
  | cons op ops ih =>
    cases op with
    | rotate newKey =>
      rw [Transition.replay, KeyOp.apply] at ht
      unfold KeyState.rotate checkedAdd at ht
      split at ht
      · cases ht
      next s' hs' =>
      have hs' : s' = ⟨newKey, s.epoch + 1, some s.current, some s.epoch⟩ := by
        split at hs' <;> cases hs'
        rfl
      subst hs'
      have hrotated : Aligned (keys ++ [newKey]) false
          ⟨newKey, s.epoch + 1, some s.current, some s.epoch⟩ := by
        refine ⟨by rw [List.length_append, ← h.epoch]; rfl, ?_, .inr ⟨s.epoch, s.current, rfl, rfl, rfl, ?_, rfl⟩⟩
        · dsimp only
          rw [h.epoch, List.getElem?_append_right (Nat.le_refl _), Nat.sub_self]
          rfl
        · rw [List.getElem?_append_left (by rw [← h.epoch]; exact Nat.lt_succ_self _)]
          exact h.current
      have hrest := ih hrotated ht
      rw [List.append_assoc] at hrest
      exact hrest
    | clearPrevious =>
      have hcleared : Aligned keys true s.clearPrevious := ⟨h.epoch, h.current, .inl ⟨rfl, rfl, .inr rfl⟩⟩
      exact ih hcleared ht

/-- HMAC taken symbolically: a tag tells its key and its data. -/
def Symbolic : Prop := ∀ key data key' data', hmac key data = hmac key' data' ↔ key = key' ∧ data = data'

variable {hmac}

/-- A seal verifies under the key it was made with and under no other. -/
theorem verifySeal_sealPayload (hsymbolic : Symbolic hmac) {key key' : Key} {tag : τ}
    (htag : sealPayload hmac key payload = some tag) :
    verifySeal hmac key' payload tag = some (decide (key' = key)) := by
  obtain ⟨data, hdata, rfl⟩ := Option.map_eq_some_iff.1 htag
  rw [verifySeal, hdata, Option.map_some, Option.some.injEq]
  simp [hsymbolic key' data key data]

theorem newKeys_append (ops ops' : List KeyOp) : newKeys (ops ++ ops') = newKeys ops ++ newKeys ops' := by
  induction ops with
  | nil => rfl
  | cons op ops ih =>
    cases op with
    | rotate newKey => exact congrArg (newKey :: ·) ih
    | clearPrevious => exact ih

theorem cleared_append (since : Bool) (ops ops' : List KeyOp) :
    cleared since (ops ++ ops') = cleared (cleared since ops) ops' := by
  induction ops generalizing since with
  | nil => rfl
  | cons op ops ih =>
    cases op with
    | rotate newKey => exact ih false
    | clearPrevious => exact ih true

/-- The answer for a seal that was made with one of the keys in use. -/
theorem Aligned.verifyWithEpoch (hsymbolic : Symbolic hmac) {keys : List Key} {since : Bool} {t : KeyState}
    (h : Aligned keys since t) (hdistinct : keys.Nodup) {epoch : ℕ} {key : Key} (hkey : keys[epoch]? = some key)
    {tag : τ} (htag : sealPayload hmac key payload = some tag) :
    t.verifyWithEpoch hmac payload tag epoch =
      some (decide (epoch = t.epoch ∨ epoch + 1 = t.epoch ∧ since = false)) := by
  have hlt : epoch < keys.length := (List.getElem?_eq_some_iff.1 hkey).1
  have hlength := h.epoch
  have hsame {i : ℕ} {other : Key} (hi : keys[i]? = some other) : other = key ↔ i = epoch := by
    constructor
    · rintro rfl
      exact (List.getElem?_inj (List.getElem?_eq_some_iff.1 hi).1 hdistinct).1 (hi.trans hkey.symm)
    · rintro rfl
      exact Option.some.inj (hi.symm.trans hkey)
  have hcurrent : LionCore.verifySeal hmac t.current payload tag = some (decide (t.epoch = epoch)) := by
    rw [verifySeal_sealPayload hsymbolic htag, Option.some.injEq, decide_eq_decide]
    exact hsame h.current
  by_cases hnow : epoch = t.epoch
  · have hvalid : t.epochValid epoch = true := if_pos hnow.ge
    rw [KeyState.verifyWithEpoch, if_pos hvalid, KeyState.verifySeal, hcurrent, decide_eq_true hnow.symm,
      decide_eq_true (.inl hnow)]
    rfl
  · have hold : ¬ t.epoch ≤ epoch := by omega
    obtain ⟨-, hnone, hwindow⟩ | ⟨previous, prevKey, hprev, hprevEpoch, hnext, hprevKey, hsince⟩ := h.window
    · have hinvalid : ¬ t.epochValid epoch = true := by
        rw [KeyState.epochValid, if_neg hold, hnone]
        simp
      rw [KeyState.verifyWithEpoch, if_neg hinvalid, eq_comm, Option.some.injEq, decide_eq_false_iff_not]
      rintro (heq | ⟨hnext, hsince⟩)
      · exact hnow heq
      · obtain hzero | hcleared := hwindow
        · omega
        · rw [hcleared] at hsince
          cases hsince
    · have hvalid : t.epochValid epoch = decide (previous ≤ epoch) := by
        rw [KeyState.epochValid, if_neg hold, hprevEpoch]
      have hprevious : LionCore.verifySeal hmac prevKey payload tag = some (decide (previous = epoch)) := by
        rw [verifySeal_sealPayload hsymbolic htag, Option.some.injEq, decide_eq_decide]
        exact hsame hprevKey
      have hanswer : (epoch = t.epoch ∨ epoch + 1 = t.epoch ∧ since = false) ↔ previous = epoch := by
        simp only [hsince, and_true]
        omega
      have hseal : t.verifySeal hmac payload tag = some (decide (previous = epoch)) := by
        rw [KeyState.verifySeal, hcurrent, decide_eq_false (Ne.symm hnow), hprev]
        exact hprevious
      rw [KeyState.verifyWithEpoch, hvalid, decide_eq_decide.2 hanswer]
      split
      · exact hseal
      · next hfar =>
        have hne : previous ≠ epoch := by
          rintro rfl
          exact hfar (decide_eq_true (Nat.le_refl _))
        rw [decide_eq_false hne]

variable (hmac)

/-- For every history of rotations and clearings with distinct keys: a payload that was sealed in some state with
the key and the epoch of that state is accepted later exactly when its epoch is the current one, or the one before
and the previous key was not cleared since the last rotation. The two forms of the rotation agree. -/
theorem verifyWithEpoch_eq (hsymbolic : Symbolic hmac) (key : Key) (before after : List KeyOp)
    (hdistinct : (key :: newKeys (before ++ after)).Nodup) {s t : KeyState}
    (hs : replay KeyOp.apply (KeyState.initial key) before = some s) (ht : replay KeyOp.apply s after = some t)
    {payload : CapPayload} (hepoch : payload.epoch = s.epoch) {tag : τ}
    (htag : sealPayload hmac s.current payload = some tag) :
    t.verifyWithEpoch hmac payload tag payload.epoch =
        some (decide (s.epoch = t.epoch ∨ s.epoch + 1 = t.epoch ∧ cleared false (before ++ after) = false)) ∧
      ∀ (keyState : KeyState) (newKey : Key), keyState.rotated newKey = keyState.rotate newKey := by
  have hstart := (aligned_initial key).replay hs
  have hend := hstart.replay ht
  have hkeys : [key] ++ newKeys before ++ newKeys after = key :: newKeys (before ++ after) := by
    rw [newKeys_append, List.append_assoc]
    rfl
  have hsealed : ([key] ++ newKeys before ++ newKeys after)[s.epoch]? = some s.current := by
    rw [List.getElem?_append_left (by rw [← hstart.epoch]; exact Nat.lt_succ_self _)]
    exact hstart.current
  constructor
  · rw [hepoch, cleared_append]
    exact hend.verifyWithEpoch hsymbolic (hkeys ▸ hdistinct) hsealed htag
  · intro keyState newKey
    unfold KeyState.rotated KeyState.rotate
    cases checkedAdd keyState.epoch 1 <;> rfl

end Seals

/-! ## One rotation -/

section Rotation

def firstKey : Key := ⟨Vector.replicate 32 1⟩

def secondKey : Key := ⟨Vector.replicate 32 2⟩

theorem symbolic_mk : Symbolic (Prod.mk : Key → List UInt8 → Key × List UInt8) := by
  intro key data key' data'
  exact Prod.mk.injEq key data key' data' ▸ Iff.rfl

/-- After a rotation the first seal is accepted, and no longer when the previous key is cleared. -/
theorem verifyWithEpoch_eq_rotated : ∃ tag, sealPayload Prod.mk firstKey (readPayload none) = some tag ∧
    (KeyState.mk secondKey 1 (some firstKey) (some 0)).verifyWithEpoch Prod.mk (readPayload none) tag 0 = some true ∧
      (KeyState.mk secondKey 1 none none).verifyWithEpoch Prod.mk (readPayload none) tag 0 = some false := by
  have hbytes : (serializePayload (readPayload none)).isSome = true := by decide +kernel
  obtain ⟨data, hdata⟩ := Option.isSome_iff_exists.1 hbytes
  have hseal : sealPayload Prod.mk firstKey (readPayload none) = some (firstKey, data) := by
    rw [sealPayload, hdata]
    rfl
  refine ⟨(firstKey, data), hseal, ?_, ?_⟩
  · exact (verifyWithEpoch_eq Prod.mk symbolic_mk firstKey [] [.rotate secondKey] (by decide) rfl rfl rfl hseal).1
  · exact (verifyWithEpoch_eq Prod.mk symbolic_mk firstKey [] [.rotate secondKey, .clearPrevious] (by decide) rfl rfl
      rfl hseal).1

end Rotation

end Lionagi.LionCore
