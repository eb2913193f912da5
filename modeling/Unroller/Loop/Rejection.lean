import Unroller.Error

/-!
# Why a loop is left alone

A rejection is an ordinary outcome of looking at a loop, not an error.  Looking at a loop may also
meet something that stops the library; `Refusal` has both.
-/

namespace Unroller

/-- Why a loop is not unrolled. -/
inductive Rejection where
  | functionNotAllowed
  /-- The header is entered from `found` places outside the loop, not from one. -/
  | noPreHeader (found : Nat)
  /-- The header is entered from `found` places inside the loop, not from one. -/
  | noUniqueTail (found : Nat)
  /-- A block other than the tail leaves the loop. -/
  | multipleExits (block : BlockId)
  /-- The tail does not end in a branch with one way out. -/
  | tailNotBranch
  | noInductionVariable
  /-- The variable is written `stores` times before the loop, not once. -/
  | ambiguousInitialValue (stores : Nat)
  /-- The variable is written `stores` times in the loop, or not by its update. -/
  | ambiguousUpdate (stores : Nat)
  | iterationOverflow
  | tooManyIterations (limit : Nat)
  | unreachableBlock (block : BlockId)
  | denylisted (kind : Kind)
  | uncloneable (kind : Kind)
  | bodyTooLarge (size limit : Nat)
  | storeDominated
  | partialUnrollDisabled
deriving DecidableEq, Inhabited, Repr

namespace Rejection

/-- The name of the check that failed. -/
def check : Rejection → String
  | .functionNotAllowed => "allow-list"
  | .noPreHeader _ => "pre-header"
  | .noUniqueTail _ | .multipleExits _ | .tailNotBranch => "tail"
  | .noInductionVariable | .ambiguousInitialValue _ | .ambiguousUpdate _ | .iterationOverflow
  | .tooManyIterations _ => "induction"
  | .unreachableBlock _ | .denylisted _ | .uncloneable _ => "body"
  | .bodyTooLarge .. | .storeDominated | .partialUnrollDisabled => "profitability"

/-- The wording of a rejection. -/
def message : Rejection → String
  | .functionNotAllowed => "function is not on the allow-list"
  | .noPreHeader found => "expected one pre-header, found " ++ toString found
  | .noUniqueTail found => "expected one back edge, found " ++ toString found
  | .multipleExits block => "block " ++ blockText block ++ " exits the loop before the tail"
  | .tailNotBranch => "tail is not a loop-exiting branch"
  | .noInductionVariable => "no induction variable"
  | .ambiguousInitialValue stores =>
    toString stores ++ " stores to the induction variable before the loop"
  | .ambiguousUpdate stores =>
    toString stores ++ " stores to the induction variable in the loop"
  | .iterationOverflow => "induction variable overflows"
  | .tooManyIterations limit => "more than " ++ toString limit ++ " iterations"
  | .unreachableBlock block => "body block " ++ blockText block ++ " is unreachable"
  | .denylisted kind => "body contains " ++ kind.name
  | .uncloneable kind => "body contains uncloneable " ++ kind.name
  | .bodyTooLarge size limit =>
    "body size " ++ toString size ++ " exceeds " ++ toString limit
  | .storeDominated => "body only stores to arrays"
  | .partialUnrollDisabled => "trip count unknown and partial unrolling disabled"

end Rejection

/-- Why looking at a loop gives no result. -/
inductive Refusal where
  | rejected (reason : Rejection)
  /-- The library stops. -/
  | stopped (cause : Error)
deriving Inhabited

namespace Refusal

variable {α : Type}

/-- A result that may be a rejection instead. -/
def rejecting (r : Except Rejection α) : Except Refusal α := r.mapError .rejected

/-- A result that the library may stop for. -/
def stopping (r : Except Error α) : Except Refusal α := r.mapError .stopped

end Refusal

end Unroller
