import Stigmergy.Settings.Basic

/-!
# Valid settings

The rules are checked in one order, and the first that is broken is the one reported: exponents,
evaporation, deposit and iterations for every variant, and then what the variant alone asks for.

* `Settings.Breach`: a broken rule with the value that breaks it.
* `Settings.breach?`: the first broken rule.
* `Settings.Valid`: no rule is broken.
-/

namespace Stigmergy.Settings

inductive Breach (α : Type) where
  | alpha (got : α)
  | beta (got : α)
  | rho (got : α)
  | q (got : α)
  | iterations
  | elitist (variant : Variant)
  | rhoOfBand
  | infinity (got : α)
  | pBest (got : α)
  deriving DecidableEq, Repr

def Breach.message {α : Type} (number : α → String) (b : Breach α) : String :=
  "invalid configuration: " ++ match b with
    | .alpha got => "alpha must be finite and >= 0, got " ++ number got
    | .beta got => "beta must be finite and >= 0, got " ++ number got
    | .rho got => "rho must be in (0, 1], got " ++ number got
    | .q got => "q must be finite and positive, got " ++ number got
    | .iterations => "iterations must be at least 1"
    | .elitist variant => variant.name ++ " requires elitist >= 1"
    | .rhoOfBand => "max-min requires rho < 1 to bound pheromone"
    | .infinity got => "infinity must be finite and positive, got " ++ number got
    | .pBest got => "p_best must be in (0, 1), got " ++ number got

variable {α : Type} [Scalar α]
open Scalar

/-- A number that is not negative and not infinite. -/
abbrev IsExponent (x : α) : Prop := ofNat 0 ≤ x ∧ isFinite x

/-- A number above zero that is not infinite. -/
abbrev IsAmount (x : α) : Prop := ofNat 0 < x ∧ isFinite x

/-- The first broken rule among those of every variant. -/
def commonBreach? (s : Settings α) : Option (Breach α) :=
  if ¬IsExponent s.alpha then some (.alpha s.alpha)
  else if ¬IsExponent s.beta then some (.beta s.beta)
  else if ¬(ofNat 0 < s.rho ∧ s.rho ≤ ofNat 1) then some (.rho s.rho)
  else if ¬IsAmount s.q then some (.q s.q)
  else if s.iterations = 0 then some .iterations
  else none

/-- The first broken rule among those of the variant. -/
def variantBreach? (s : Settings α) : Option (Breach α) :=
  match s.variant with
  | .antSystem => none
  | .elitist | .rankBased => if s.elitist = 0 then some (.elitist s.variant) else none
  | .maxMin =>
    if ofNat 1 ≤ s.rho then some .rhoOfBand
    else if ¬IsAmount s.infinity then some (.infinity s.infinity)
    else if ¬(ofNat 0 < s.pBest ∧ s.pBest < ofNat 1) then some (.pBest s.pBest)
    else none

def breach? (s : Settings α) : Option (Breach α) := s.commonBreach? <|> s.variantBreach?

def Valid (s : Settings α) : Prop := s.breach? = none

instance (s : Settings α) : Decidable s.Valid :=
  decidable_of_iff (s.breach?.isNone = true) Option.isNone_iff_eq_none

end Stigmergy.Settings
