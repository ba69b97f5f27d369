import TypeFlow.Graph.Basic

/-! What can be wrong with a program, and how it is told. An error inside a method is wrapped
once for each call on the way to it. -/

namespace TypeFlow

/-- The reasons for which no types can be assigned. -/
inductive Cause where
  | undefinedMethod (name : String) (receiver : Option String) (asCall : Bool)
  | arity (name : String) (given expected : Nat)
  | frozenCall (name : String) (owner : Option String) (args : List String)
  | unknownConstant (name : String)
  | misplacedInstanceVar
  deriving DecidableEq

inductive SiteKind where
  | call | const | instanceVar
  deriving DecidableEq

/-- The part of the program that an error points at. -/
structure ErrorSite where
  node : NodeId
  kind : SiteKind
  name : String
  span : Int × Int
  deriving DecidableEq

/-- An error has a cause, or arose while a call was walking over an instance of a method. -/
inductive InferenceError where
  | cause (cause : Cause) (site : ErrorSite)
  | instantiating (site : ErrorSite) (inst : InstanceId) (inner : InferenceError)
  deriving DecidableEq

namespace Cause

def message : Cause → String
  | undefinedMethod name (some receiver) _ => "undefined method '" ++ name ++ "' for " ++ receiver
  | undefinedMethod name none true => "undefined method '" ++ name ++ "'"
  | undefinedMethod name none false => "undefined local variable or method '" ++ name ++ "'"
  | arity name given expected =>
      "wrong number of arguments for '" ++ name ++ "' (" ++ toString given ++ " for " ++
        toString expected ++ ")"
  | frozenCall name owner args =>
      "can't call " ++ (owner.map (· ++ "#")).getD "" ++ name ++ " with types [" ++
        ", ".intercalate args ++ "]"
  | unknownConstant name => "uninitialized constant " ++ name
  | misplacedInstanceVar => "can't use instance variables outside a class's methods"

end Cause

namespace InferenceError

def site : InferenceError → ErrorSite
  | cause _ s => s
  | instantiating s _ _ => s

def message : InferenceError → String
  | cause c _ => c.message
  | instantiating s _ _ => "instantiating '" ++ s.name ++ "'"

/-- The error and what it wraps, innermost last. -/
def chain : InferenceError → List InferenceError
  | e@(cause _ _) => [e]
  | e@(instantiating _ _ inner) => e :: inner.chain

/-- The error that wraps nothing. -/
def root : InferenceError → InferenceError
  | e@(cause _ _) => e
  | instantiating _ _ inner => inner.root

theorem chain_ne_nil (e : InferenceError) : e.chain ≠ [] := by
  cases e <;> simp [chain]

theorem getLast?_chain (e : InferenceError) : e.chain.getLast? = some e.root := by
  induction e with
  | cause c s => rfl
  | instantiating s i inner ih =>
      rw [chain, root, ← ih]
      exact List.getLast?_cons_of_ne_nil inner.chain_ne_nil

end InferenceError

/-- Why inference stops early: an error of the program, or one of the ways to use the graph
that no program leads to. -/
inductive Fault where
  | inference (error : InferenceError)
  | unknownReaction (word : String)
  | cannotResolve (node : NodeId)
  | notACall (node : NodeId)
  | unlinked (node : NodeId)
  | malformedUnion (node : NodeId)
  /-- The body of a method refers to the program as a whole, so that it cannot be copied. -/
  | entangled (method : NodeId)
  | dangling (node : NodeId)
  deriving DecidableEq

/-- Wraps an error of the program, and leaves any other fault as it is. -/
def Fault.within (site : ErrorSite) (inst : InstanceId) : Fault → Fault
  | .inference e => .inference (.instantiating site inst e)
  | f => f

end TypeFlow
