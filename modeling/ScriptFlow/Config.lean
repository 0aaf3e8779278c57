/-! Settings of an analysis. -/

namespace ScriptFlow

structure Config where
  /-- Fold calls of pure core methods on known operands. -/
  simulate : Bool
  /-- How many worklist steps a propagation may take. -/
  maxSteps : Option Nat
  /-- Drop blocks that propagation never enters from analysed graphs. -/
  pruneUnexecuted : Bool
  /-- How deep expressions may nest. -/
  maxDepth : Nat
  /-- Analyse the bodies of called methods, not only what is declared of them. -/
  specializeBodies : Bool
  /-- Find out how methods use their block. -/
  blockAnalysis : Bool
  /-- Answer several queries at once independently of each other. -/
  parallel : Bool
  /-- Tell hidden methods of the caller's own class hierarchy from others. -/
  refinePrivacy : Bool
deriving DecidableEq

namespace Config

def standard : Config where
  simulate := true
  maxSteps := none
  pruneUnexecuted := false
  maxDepth := 512
  specializeBodies := true
  blockAnalysis := true
  parallel := true
  refinePrivacy := true

def precise : Config := { standard with pruneUnexecuted := true }

def fast : Config :=
  { standard with
    maxSteps := some 100000, specializeBodies := false, blockAnalysis := false, parallel := false }

end Config

end ScriptFlow
