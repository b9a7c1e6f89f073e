/-!
# Errors of a model

Why a variable or a constraint is not taken into a network.
-/
namespace FiniteDomain

inductive ModelError where
  | emptyDomain (name : String)
  | duplicateDomainValue (name : String) (value : Int)
  | emptyScope (constraint : String)
  | duplicateScopeVariable (constraint name : String)
  | unknownVariable (constraint : String)
  | tupleArityMismatch (constraint : String) (expected found : Nat)
  | valueOutsideDomain (constraint name : String) (value : Int)
deriving DecidableEq

namespace ModelError

def message : ModelError → String
  | emptyDomain name => s!"The variable {name} was created with an empty domain"
  | duplicateDomainValue name value =>
    s!"The value {value} occurs more than once in the domain of {name}"
  | emptyScope constraint => s!"The constraint {constraint} has an empty scope"
  | duplicateScopeVariable constraint name =>
    s!"The variable {name} occurs more than once in the scope of {constraint}"
  | unknownVariable constraint =>
    s!"The constraint {constraint} refers to a variable which is not part of the problem"
  | tupleArityMismatch constraint expected found =>
    s!"The constraint {constraint} has a tuple of arity {found}, expected {expected}"
  | valueOutsideDomain constraint name value =>
    s!"The constraint {constraint} allows {value} for {name}, which is not in its domain"

end ModelError

end FiniteDomain
