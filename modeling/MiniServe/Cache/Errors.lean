import Mathlib.Algebra.Group.Int.Defs
import Mathlib.Data.List.Basic

namespace MiniServe

abbrev Token := Int
abbrev Rid := Nat

-- What a tensor of dtype `long` holds.
def IsLong (x : Int) : Prop := -2 ^ 63 ≤ x ∧ x < 2 ^ 63

instance (x : Int) : Decidable (IsLong x) := inferInstanceAs (Decidable (_ ∧ _))

inductive ErrorKind where
  | valueError | indexError | outOfBlocks | runtimeError | assertionError | keyError
  | invalidTransition | attributeError
  deriving DecidableEq, Repr

inductive Error where
  | sizesNotPositive (numBlocks blockSize : Int)
  | cannotAllocate (n : Int)
  | requestedBlocks (n : Int) (free : Nat)
  | increfOfFree (block : Int)
  | freeOfBlock (block : Int) (releases refcount : Nat)
  | blockOutOfRange (block : Int) (numBlocks : Nat)
  | duplicateInPrefix (blocks : List Int)
  | cannotAppend (n : Int)
  | positionOutOfRange (pos : Int) (numTokens : Int)
  | cannotRewind (n : Int) (numTokens : Int)
  | tailOutOfRange (n : Int) (numTokens : Int)
  | oneLimitPerSequence
  | pathBlocksDisagree
  | tokensForBlocks (tokens blocks blockSize : Nat)
  | unlockOfUnlocked
  | clearWithLocks
  | padRowsNegative
  | packingBuffersTooSmall (indptr indices last : Nat)
  | alreadyHoldsCache (rid : Rid)
  | noCache (rid : Rid)
  | needFreeBlocks (n : Int) (free : Nat)
  | emptyPrompt
  | badTransition (rid : Rid)
  | notWaiting (rid : Rid)
  | needsMoreThanPool (rid : Rid) (maxLen pool : Nat)
  | notDone (rid : Rid)
  | loneRequestDoesNotFit
  | startsDisagree
  | placeholderOutsideDecode
  | placeholderWithoutPrevious
  | longOverflow
  | missingRow (rid : Rid)
  | missingRequest (rid : Rid)
  | notGreedy
  | negativeGamma (value : Int)
  | roundGraphsNotCaptured
  | draftCacheHeld (rid : Rid)
  | draftTokensHeld (rid : Rid) (tokens : Nat)
  | cachedTokensDisagree (rid : Rid) (cached seqLen : Nat)
  | verifiedPositions (chosen proposals : Nat)
  deriving DecidableEq, Repr

namespace Error

def kind : Error → ErrorKind
  | sizesNotPositive .. | cannotAllocate .. | increfOfFree .. | freeOfBlock ..
  | duplicateInPrefix .. | cannotAppend .. | oneLimitPerSequence | tokensForBlocks ..
  | unlockOfUnlocked | padRowsNegative | packingBuffersTooSmall .. | emptyPrompt
  | notWaiting .. | needsMoreThanPool .. | notDone .. | notGreedy | negativeGamma ..
  | roundGraphsNotCaptured | verifiedPositions .. => .valueError
  | blockOutOfRange .. | positionOutOfRange .. | cannotRewind .. | tailOutOfRange .. => .indexError
  | requestedBlocks .. | needFreeBlocks .. => .outOfBlocks
  | clearWithLocks | alreadyHoldsCache .. | startsDisagree | placeholderOutsideDecode
  | placeholderWithoutPrevious | longOverflow | draftCacheHeld .. | draftTokensHeld ..
  | cachedTokensDisagree .. => .runtimeError
  | pathBlocksDisagree | loneRequestDoesNotFit => .assertionError
  | missingRow .. | missingRequest .. => .keyError
  | badTransition .. => .invalidTransition
  | noCache .. => .attributeError

end Error

end MiniServe
