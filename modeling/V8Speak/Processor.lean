import V8Speak.Interruption
import V8Speak.VectorArithmetic

/-!
# The BigInt processor

The state of `ProcessorImpl` (`bigint/bigint-internal.h`): the work done since
the platform was last asked for a pending interrupt, and the status of the
current operation. The platform is an oracle, the sequence of the answers
that `Platform::InterruptRequested` gives.

The BigInt algorithms are computations of the monad `ProcessorM` over this
state; a failed assertion or an access out of range is `none`.
-/

open Interruption

inductive Status
  | kOk
  | kInterrupted
  deriving DecidableEq, Repr

/-- The state of a `ProcessorImpl` with its platform. -/
structure Processor where
  workEstimate : UInt64
  status : Status
  /-- The answers of `platform_->InterruptRequested()`. -/
  interruptRequested : ℕ → Bool
  /-- How often the platform has been asked. -/
  asked : ℕ

/-- The methods of the processor. -/
abbrev ProcessorM := StateT Processor Option

namespace Processor

def kWorkEstimateThreshold : UInt64 := 5000000

/-- The state after `AddWorkEstimate(estimate)`. -/
def afterWork (p : Processor) (estimate : ℕ) : Processor :=
  let workEstimate := p.workEstimate + UInt64.ofNat estimate
  if kWorkEstimateThreshold ≤ workEstimate then
    { p with
      workEstimate := 0
      status := if p.interruptRequested p.asked then .kInterrupted else p.status
      asked := p.asked + 1 }
  else { p with workEstimate }

def addWorkEstimate (estimate : ℕ) : ProcessorM Unit :=
  modify (afterWork · estimate)

/-- No interruption has been noticed. -/
def Live (p : Processor) : Prop := p.status = .kOk

/-- An interruption is not forgotten. -/
theorem live_of_afterWork {p : Processor} {estimate : ℕ} (h : Live (p.afterWork estimate)) :
    Live p := by
  rw [Live, afterWork] at h
  by_cases ht : kWorkEstimateThreshold ≤ p.workEstimate + UInt64.ofNat estimate
  · rw [if_pos ht] at h
    by_cases hi : p.interruptRequested p.asked = true
    · simp [hi] at h
    · simpa [Live, hi] using h
  · rwa [if_neg ht] at h

theorem addWorkEstimate_yields (estimate : ℕ) :
    Yields Live (addWorkEstimate estimate) (fun _ => True) :=
  fun p => ⟨(), p.afterWork estimate, rfl, trivial, fun h => ⟨live_of_afterWork h, trivial⟩⟩

end Processor
