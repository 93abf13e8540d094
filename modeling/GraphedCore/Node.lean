import GraphedCore.Param

/-!
# Nodes and their structural keys

A node is its structural key: kind, name or descriptor, parameters and input
ids. `NodeKey.eq` is the equality the intern table uses; it differs from
equality of stored keys only in the bits of NaN parameters.

The token is the operator identity without the inputs. Names and parameters are
escaped in it; the descriptor fields of an external payload are not, and a stage
contributes only the number of its members.
-/

namespace GraphedCore

/-- The place of a node in its arena. Ids are granted in the order of recording,
starting at zero. -/
abbrev NodeId := Nat

/-- Reproducibility metadata of an external payload. It is all the core knows of
the payload, which it never opens. -/
structure PayloadDescriptor where
  kind : String
  contentHash : String
  framework : String
  version : String
  ioSchema : String
  preprocessingRef : Option String
deriving DecidableEq

/-- What a member of a stage reads: one of the external inputs of the stage, or an
earlier member. -/
inductive StageRef where
  | input (slot : Nat)
  | member (index : Nat)
deriving DecidableEq

/-- One fused op of a stage: its token, which stands for the operator, and where
its inputs come from. -/
structure StageOp where
  token : String
  inputs : List StageRef
deriving DecidableEq

/-- The five kinds of nodes. A stage holds the ops that were fused into it, with
slots for its own inputs and for the members before. -/
inductive NodeKey where
  | source (name : String) (params : ParamMap)
  | op (name : String) (params : ParamMap) (inputs : List NodeId)
  | reduction (name : String) (params : ParamMap) (inputs : List NodeId)
  | external (descriptor : PayloadDescriptor) (params : ParamMap) (inputs : List NodeId)
  | stage (inputs : List NodeId) (members : List StageOp)
deriving DecidableEq

/-- Append the parameter encoding to a token behind a bar, if there are
parameters. -/
def withParams (token : String) (params : ParamMap) : String :=
  if params.isEmpty then token else token ++ "|" ++ params.token

namespace NodeKey

/-- The derived `==` of the source, over parameter equality. Kinds are told apart,
inputs are compared in order. -/
def eq : NodeKey → NodeKey → Bool
  | .source n p, .source n' p' => n == n' && p.eq p'
  | .op n p i, .op n' p' i' => n == n' && p.eq p' && i == i'
  | .reduction n p i, .reduction n' p' i' => n == n' && p.eq p' && i == i'
  | .external d p i, .external d' p' i' => d == d' && p.eq p' && i == i'
  | .stage i m, .stage i' m' => i == i' && m == m'
  | _, _ => false

/-- What a node reads, in order. A source reads nothing, and the members of a
stage read nothing by themselves. -/
def inputs : NodeKey → List NodeId
  | .source _ _ => []
  | .op _ _ inputs | .reduction _ _ inputs | .external _ _ inputs | .stage inputs _ => inputs

/-- Everything but a plain op is a boundary, which fusion does not put into a
stage. Stages are boundaries too. -/
def isBoundary : NodeKey → Bool
  | .op _ _ _ => false
  | _ => true

/-- The operator identity of a node, excluding its inputs. The fields of a payload
are joined by bars as they stand, and of a stage only the number of members is
told. -/
def token : NodeKey → String
  | .source name params => withParams ("src|" ++ escapeToken name) params
  | .op name params _ => withParams ("op|" ++ escapeToken name) params
  | .reduction name params _ => withParams ("red|" ++ escapeToken name) params
  | .external d params _ =>
      withParams ("ext|" ++ d.kind ++ "|" ++ d.contentHash ++ "|" ++ d.framework ++ "|" ++
        d.version ++ "|" ++ d.ioSchema ++ "|" ++ d.preprocessingRef.getD "-") params
  | .stage _ members => "stage|" ++ members.length.repr

/-- The same operator over fresh inputs. A source has none and ignores them, and
the members of a stage stay. -/
def withInputs : NodeKey → List NodeId → NodeKey
  | .source name params, _ => .source name params
  | .op name params _, inputs => .op name params inputs
  | .reduction name params _, inputs => .reduction name params inputs
  | .external d params _, inputs => .external d params inputs
  | .stage _ members, inputs => .stage inputs members

end NodeKey

end GraphedCore
