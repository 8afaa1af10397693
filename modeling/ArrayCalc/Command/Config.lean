import ArrayCalc.Command.Options
import ArrayCalc.Output.Save

namespace ArrayCalc

/-- What one evaluation needs to know. -/
structure Config where
  expression : List Char
  files : List Path
  target : Option Path
  save : SaveOptions
  verbose : Bool

/-- Where and how a result is stored, with defaults for what the options leave open. -/
def Options.saving (o : Options) : SaveOptions where
  output :=
    { format := o.outputFormat
      precision := o.precision.getD OutputOptions.defaultPrecision
      threshold := o.threshold.getD OutputOptions.defaultThreshold }
  components := o.components

/-- The configuration for an expression. -/
def Options.config (o : Options) (expression : List Char) : Config where
  expression := expression
  files := o.files
  target := o.output
  save := o.saving
  verbose := o.verbose

end ArrayCalc
