import Mathlib.Data.List.Basic

/-!
# Links between drops of different managers

The relationship kinds of the drop protocol, and the tuples in which relationships between
drops of different managers travel.
-/
namespace Daliuge.Manager

/-- `DROPLinkType`. -/
inductive LinkType
  | consumer | streamingConsumer | producer | parent | child | input | streamingInput | output
  deriving DecidableEq, Repr

/-- `DROPRel`: the left-hand drop is the `rel` of the right-hand one. -/
structure DROPRel (O : Type) where
  lhs : O
  rel : LinkType
  rhs : O
  deriving DecidableEq, Repr

namespace LinkType

/-- The kinds whose left-hand drop hears from the right-hand one. -/
def isEvtConsumer : LinkType → Bool
  | consumer | streamingConsumer | output => true
  | _ => false

/-- The kinds whose right-hand drop hears from the left-hand one. -/
def isEvtProducer : LinkType → Bool
  | input | streamingInput | producer => true
  | _ => false

/-- `LINKTYPE_1TON_APPEND_METHOD`; a parent has no entry. -/
def appendMethod : LinkType → Option String
  | consumer => some "addConsumer"
  | streamingConsumer => some "addStreamingConsumer"
  | input => some "addInput"
  | streamingInput => some "addStreamingInput"
  | output => some "addOutput"
  | child => some "addChild"
  | producer => some "addProducer"
  | parent => none

/-- `LINKTYPE_1TON_BACK_APPEND_METHOD`. -/
def backAppendMethod : LinkType → Option String
  | consumer => some "addInput"
  | streamingConsumer => some "addStreamingInput"
  | input => some "addConsumer"
  | streamingInput => some "addStreamingConsumer"
  | output => some "addProducer"
  | child => some "setParent"
  | producer => some "addOutput"
  | parent => none

end LinkType

end Daliuge.Manager
