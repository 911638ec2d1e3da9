import Mathlib.Data.List.Basic

/-!
# Patterns of operations

A pattern is a label and a chain of operation kinds.
-/

namespace Rustorch
namespace Fusion

inductive OpKind
  | matmul
  | biasAdd
  | relu
  | gelu
  | silu
  | layerNorm
  | rmsNorm
  | linear
  | add
  | mul
  | sub
  | div
  | sigmoid
  | tanh
  | any
  deriving DecidableEq, Repr

structure Pattern where
  label : String
  chain : List OpKind
  deriving DecidableEq, Repr

namespace Pattern

def len (p : Pattern) : Nat :=
  p.chain.length

def isEmpty (p : Pattern) : Bool :=
  p.chain.isEmpty

end Pattern

end Fusion
end Rustorch
