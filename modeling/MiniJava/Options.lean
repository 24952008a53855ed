import MiniJava.Label

/-!
# Settings of a run

`Options` decides how assembly is written.  `Setup` gathers wishes in any
order: a wish about one option wins over a whole set of options, whichever was
made last, and what nobody asked for takes its default.
-/

namespace MiniJava

/-- How assembly is written. -/
structure Options where
  /-- Add a small constant to a variable by one instruction. -/
  iinc : Bool := true
  /-- The blanks before every instruction. -/
  indent : String := "   "
deriving DecidableEq, Repr

/-- Wishes for a run, each possibly absent. -/
structure Setup where
  names? : Option Names := none
  options? : Option Options := none
  iinc? : Option Bool := none
  indent? : Option String := none
deriving DecidableEq, Repr

namespace Setup

/-- The supply of names with which the run starts. -/
def names (setup : Setup) : Names := setup.names?.getD .fresh

/-- The options of the run. -/
def options (setup : Setup) : Options :=
  let base := setup.options?.getD {}
  { iinc := setup.iinc?.getD base.iinc
    indent := setup.indent?.getD base.indent }

end Setup

end MiniJava
