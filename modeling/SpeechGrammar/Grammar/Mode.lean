set_option autoImplicit false

/-!
# Input mode and scope

A grammar describes spoken words or the keys of a telephone. A rule is visible outside its
grammar or not.
-/

namespace SpeechGrammar

/-- The input that a grammar describes. -/
inductive Mode where
  | voice
  | dtmf
deriving Repr, DecidableEq

/-- The written form of a mode. -/
def Mode.name : Mode → String
  | .voice => "voice"
  | .dtmf => "dtmf"

/-- The mode with the written form. -/
def Mode.ofName? (s : String) : Option Mode :=
  if s = "voice" then some .voice else if s = "dtmf" then some .dtmf else none

/-- The label of a mode that may be unset. -/
def modeLabel : Option Mode → String
  | none => "unset"
  | some mode => mode.name

/-- The confidence of a match: one for keys, which are certain, and zero otherwise. -/
def confidence : Option Mode → Nat
  | some .dtmf => 1
  | _ => 0

/-- The visibility of a rule. -/
inductive Scope where
  | isPublic
  | isPrivate
deriving Repr, DecidableEq, Inhabited

/-- The written form of a scope. -/
def Scope.name : Scope → String
  | .isPublic => "public"
  | .isPrivate => "private"

/-- The scope with the written form. -/
def Scope.ofName? (s : String) : Option Scope :=
  if s = "public" then some .isPublic else if s = "private" then some .isPrivate else none

end SpeechGrammar
