/-! How often something happens over all runs: an exception, the use of a block. -/

namespace ScriptFlow

inductive Frequency where
  | never
  | maybe
  | always
deriving DecidableEq, Inhabited

namespace Frequency

def all : List Frequency := [.never, .maybe, .always]

def rank : Frequency → Nat
  | .never => 0
  | .maybe => 1
  | .always => 2

def join (a b : Frequency) : Frequency := if a.rank < b.rank then b else a

/-- What runs with and without the event say together; no runs at all count as always. -/
def ofSamples : (seen unseen : Bool) → Frequency
  | false, true => .never
  | true, true => .maybe
  | _, false => .always

def name : Frequency → String
  | .never => "never"
  | .maybe => "maybe"
  | .always => "always"

end Frequency

/-- How a method treats the block passed to it. -/
inductive BlockUse where
  | required
  | optional
  | foolish
  | ignored
deriving DecidableEq, Inhabited

namespace BlockUse

def all : List BlockUse := [.required, .optional, .foolish, .ignored]

def name : BlockUse → String
  | .required => "required"
  | .optional => "optional"
  | .foolish => "foolish"
  | .ignored => "ignored"

/-- The use seen in two runs: one with a block, one without. -/
def classify : (callsBlock failsWithout : Bool) → BlockUse
  | true, true => .required
  | true, false => .optional
  | false, true => .foolish
  | false, false => .ignored

def mayCall : BlockUse → Bool
  | .required | .optional => true
  | .foolish | .ignored => false

end BlockUse

end ScriptFlow
