import InvariantSynthesis.Table

namespace InvariantSynthesis

inductive TemplateShape where
  | intervals
  | zones
  | octagons
  deriving DecidableEq

inductive Strategy where
  | enumeration
  | bisection
  deriving DecidableEq

inductive DomainConfig where
  | ranking (lexicographic : Bool)
  | equalities
  | predicates
  | heap
  | heapTemplate (shape : TemplateShape) (paths : Bool)
  | template (shape : TemplateShape) (strategy : Strategy)
  deriving DecidableEq

def minWidth : Nat := 2

def maxWidth : Nat := 32

structure Config where
  domain : DomainConfig
  showImprecise : Bool := false
  width : Nat := 8
  /-- Variables without stand-alone bounds in templates. -/
  withheld : NameSet := .empty
  maxComponents : Nat := 3
  maxRefinements : Nat := 20
  maxTargets : Nat := 4
  nodeLimit : Nat := 4194304

end InvariantSynthesis
