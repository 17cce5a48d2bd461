import Qnero.Extrinsic.Call

/-!
# What the call filter admits

The filter recurses through the two wrappers that carry a typed call, and decodes the payload of a
proposal or an approval once. `Within` is occurrence in the typed tree of a call. What is admitted
is admitted everywhere in its tree (`Within.allowed`), and every payload in it is the encoding of a
call that is admitted too and carries no further payload (`Within.payload`).
-/

namespace Qnero

open Scale

/-- `sub` occurs in the typed tree of a call: in a batch or under an execution, to any depth. -/
inductive Within (sub : RuntimeCall) : RuntimeCall → Prop
  | refl : Within sub sub
  | batchAll {call : RuntimeCall} {calls : List RuntimeCall} (mem : call ∈ calls)
      (inner : Within sub call) : Within sub (.batchAll calls)
  | execute {multisig : AccountId} {proposalId : ℕ} {call : RuntimeCall}
      (inner : Within sub call) : Within sub (.execute multisig proposalId call)

/-- The encoded call a proposal or an approval carries. -/
def RuntimeCall.payload : RuntimeCall → Option (List UInt8)
  | .propose _ call _ | .approve _ _ call => some call
  | _ => none

variable {rule : List UInt8 → Bool} {sub call : RuntimeCall}

theorem anyRefusedWith_eq_false {calls : List RuntimeCall} :
    anyRefusedWith rule calls = false ↔ ∀ call ∈ calls, refusedWith rule call = false := by
  induction calls with
  | nil => simp [anyRefusedWith]
  | cons call calls ih => simp [anyRefusedWith, ih]

theorem anyCarriesAProposal_eq_false {calls : List RuntimeCall} :
    anyCarriesAProposal calls = false ↔ ∀ call ∈ calls, carriesAProposal call = false := by
  induction calls with
  | nil => simp [anyCarriesAProposal]
  | cons call calls ih => simp [anyCarriesAProposal, ih]

theorem Within.not_refused (within : Within sub call) (h : refusedWith rule call = false) :
    refusedWith rule sub = false := by
  induction within with
  | refl => exact h
  | batchAll mem _ ih => exact ih (anyRefusedWith_eq_false.1 h _ mem)
  | execute _ ih => exact ih h

theorem Within.no_proposal (within : Within sub call) (h : carriesAProposal call = false) :
    carriesAProposal sub = false := by
  induction within with
  | refl => exact h
  | batchAll mem _ ih => exact ih (anyCarriesAProposal_eq_false.1 h _ mem)
  | execute _ ih => exact ih h

theorem payload_eq_none (h : carriesAProposal call = false) : call.payload = none := by
  cases call with
  | propose | approve => cases h
  | leaf | shielded | batchAll | execute => rfl

mutual

/-- Without a proposal in it, a call is judged the same whatever the rule for proposals. -/
theorem refusedWith_congr {rule rule' : List UInt8 → Bool} : ∀ call : RuntimeCall,
    carriesAProposal call = false → refusedWith rule call = refusedWith rule' call
  | .leaf .., _ | .shielded _, _ => rfl
  | .batchAll calls, h => anyRefusedWith_congr calls h
  | .execute _ _ call, h => refusedWith_congr call h

theorem anyRefusedWith_congr {rule rule' : List UInt8 → Bool} : ∀ calls : List RuntimeCall,
    anyCarriesAProposal calls = false → anyRefusedWith rule calls = anyRefusedWith rule' calls
  | [], _ => rfl
  | call :: calls, h => by
    rw [anyCarriesAProposal, Bool.or_eq_false_iff] at h
    rw [anyRefusedWith, anyRefusedWith, refusedWith_congr call h.1, anyRefusedWith_congr calls h.2]

end

variable {info : CallInfo}

theorem qneroCallFilter_eq_true : qneroCallFilter info call = true ↔
    refusedWith (theProposalIsRefused info) call = false := by
  rw [qneroCallFilter, Bool.not_eq_true', refusedUnderV1]

/-- **What occurs in an admitted call is admitted.** -/
theorem Within.allowed (within : Within sub call) (h : qneroCallFilter info call = true) :
    qneroCallFilter info sub = true :=
  qneroCallFilter_eq_true.2 (within.not_refused (qneroCallFilter_eq_true.1 h))

/-- A payload the filter lets through: the encoding of a call that is admitted, not too heavy and
carries no payload itself. -/
structure Sealed (info : CallInfo) (payload : List UInt8) (inner : RuntimeCall) : Prop where
  decoded : info.decodeWithDepthLimit payload = some inner
  canonical : inner.encode = payload
  light : info.weightExceeds inner = false
  no_proposal : carriesAProposal inner = false
  allowed : qneroCallFilter info inner = true

theorem sealed_of_not_refused {payload : List UInt8} (h : theProposalIsRefused info payload = false) :
    ∃ inner, Sealed info payload inner := by
  unfold theProposalIsRefused at h
  split at h
  · cases h
  · next inner decoded =>
    split at h
    · cases h
    · next canonical =>
      split at h
      · cases h
      · next light =>
        obtain ⟨none, kept⟩ := Bool.or_eq_false_iff.1 h
        refine ⟨inner, decoded, not_not.1 canonical, Bool.eq_false_iff.2 light, none,
          qneroCallFilter_eq_true.2 ?_⟩
        rw [refusedWith_congr inner none]
        exact kept

/-- **Every payload in an admitted call is sealed.** -/
theorem Within.payload (within : Within sub call) (h : qneroCallFilter info call = true)
    {payload : List UInt8} (carried : sub.payload = some payload) :
    ∃ inner, Sealed info payload inner := by
  have kept := within.not_refused (qneroCallFilter_eq_true.1 h)
  cases sub with
  | propose | approve =>
    obtain rfl := Option.some.inj carried
    exact sealed_of_not_refused kept
  | leaf | shielded | batchAll | execute => cases carried

end Qnero
