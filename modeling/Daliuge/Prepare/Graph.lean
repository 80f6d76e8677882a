import Daliuge.Unroll.Node

/-!
# Graphs before they are unrolled

A logical graph as the prepare stage changes it: a list of nodes, each with a list of fields, and
a list of links. `F` stands for the floating point numbers, which nothing here computes with.
-/
namespace Daliuge.Prepare

open Unroll (NodeId)

/-- JSON values; lists and objects are not looked into. -/
inductive Value (F : Type)
  | null
  | bool (b : Bool)
  | int (i : Int)
  | float (x : F)
  | text (s : String)
  | nested (json : String)
  deriving DecidableEq, Repr

instance lawfulBEqValue {F : Type} [DecidableEq F] : LawfulBEq (Value F) := inferInstance

/-- A field of a node. -/
structure Field (F : Type) where
  id : NodeId
  name : String
  type : String := ""
  value : Value F
  deriving DecidableEq, Repr

end Daliuge.Prepare
